import Metl.Sequences.RingLists

/-! The calls on rings, as calls on lists.

        push_overwrite(front()) on a full ring       a b c  ──▶  b c a

    `next` says what each call does to lists bounded by the capacity: where the new element goes, what its
    constructor leaves of the element it was given, what a full container does. Arguments are bound
    before the call, to a slot; while the constructor runs, slots before or behind may be claimed and
    the head may have moved, and still the slot is that of the same element. -/

namespace Metl.RingCore

open Metl.Schemes Metl.Schemes.Storage Metl.Schemes.Prog Function

variable {C A : Type}

/-! ### Lists -/

def End.add : End → A → List A → List A
  | .back, a, l => l ++ [a]
  | .front, a, l => a :: l

/-- The element constructed from the arguments; none if the constructor throws. -/
def Source.made (σ : C → List A) : Source C A → Option A
  | .value a => some a
  | .throws => none
  | .element c i make _ => (σ c)[i]?.map make

/-- Arguments that refer to an element refer to one that is there. -/
def Source.inRange (size : C → ℕ) : Source C A → Bool
  | .element c i _ _ => decide (i < size c)
  | _ => true

/-- The call would throw. -/
def throws (P : Params A) (σ : C → List A) : Op C A → Bool
  | .tryEmplace _ c args => decide ((σ c).length ≠ P.capacity) && (args.made σ).isNone
  | .emplace _ _ args => (args.made σ).isNone
  | .pushOverwrite _ args => (args.made σ).isNone
  | _ => false

variable [DecidableEq C]

/-- The lists once the constructor has run. -/
def Source.leaves (σ : C → List A) : Source C A → C → List A
  | .element c i _ leave => update σ c ((σ c).modify i leave)
  | _ => σ

/-- Arguments that neither throw nor refer to the front of `c`. -/
def Source.spares (c : C) : Source C A → Bool
  | .value _ => true
  | .throws => false
  | .element d i _ _ => decide (d = c → i ≠ 0)

/-- A new element at one end. -/
def insert (e : End) (c : C) (args : Source C A) (σ : C → List A) : C → List A :=
  match args.made σ with
  | none => σ
  | some a => update (args.leaves σ) c (e.add a (args.leaves σ c))

/-- A new element at the back in place of the oldest. -/
def overwrite (c : C) (args : Source C A) (σ : C → List A) : C → List A :=
  match args.made σ with
  | none => σ
  | some a => update (args.leaves σ) c ((args.leaves σ c).tail ++ [a])

/-- The calls on lists bounded by the capacity. -/
def next (P : Params A) (σ : C → List A) : Op C A → C → List A
  | .tryEmplace e c args => if (σ c).length = P.capacity then σ else insert e c args σ
  | .emplace e c args => insert e c args σ
  | .pushOverwrite c args =>
    if (σ c).length = P.capacity then overwrite c args σ else insert .back c args σ
  | .popFront c => update σ c (σ c).tail
  | .popBack c => update σ c (σ c).dropLast
  | .clear c => update σ c []
  | .copyConstruct c other => update σ c (σ other)
  | .moveConstruct c other => update (update σ c (σ other)) other []
  | .copyAssign c other => update σ c (σ other)
  | .moveAssign c other =>
    if c = other then σ else update (update σ c (σ other)) other []
  | .swap c other => exchange σ c other

/-- The caller's side: references to live elements, and the preconditions of the asserting forms. Where
    `T` cannot be built aside, what a full ring overwrites must not be referred to, and its
    constructor must not throw. -/
def Op.valid (P : Params A) (size : C → ℕ) : Op C A → Bool
  | .tryEmplace _ _ args => args.inRange size
  | .emplace _ c args => decide (size c < P.capacity) && args.inRange size
  | .pushOverwrite c args =>
    args.inRange size && (decide (size c ≠ P.capacity) || P.movable || args.spares c)
  | .popFront c => decide (0 < size c)
  | .popBack c => decide (0 < size c)
  | .copyConstruct c other => decide (c ≠ other)
  | .moveConstruct c other => decide (c ≠ other)
  | _ => true

/-! ### What a constructor does -/

variable {P : Params A} {head : C → ℕ} {σ : C → List A} {w : World C A} {c : C}
  {args : Source C A} {ctor : Prog (World C A) A} {R : World C A → Prop}

/-- The constructor with its arguments bound, seen from the lists. -/
def Bound (P : Params A) (head : C → ℕ) (σ : C → List A) : Source C A → Prog (World C A) A → Prop
  | .value a, ctor => ctor = pure a
  | .throws, ctor => ctor = Prog.raise
  | .element d i make leave, ctor =>
    i < (σ d).length ∧ ctor = construct (d, around P.capacity (head d) i) make leave

theorem ends_bindArgs {Q : Prog (World C A) A → World C A → Prop} (h : Ring P head (filled σ) w)
    (hrange : args.inRange w.regs.size = true) (hret : ∀ ctor, Bound P head σ args ctor → Q ctor w) :
    (bindArgs P args).Ends w Q R := by
  cases args with
  | value a => exact hret _ rfl
  | throws => exact hret _ rfl
  | element d i make leave =>
    have hi : i < (filled σ d).length := by
      have hlt := of_decide_eq_true hrange
      rw [h.holds.regs_eq] at hlt
      exact hlt
    refine ends_bind (ends_slotAt h hi (ends_pure (hret _ ⟨?_, rfl⟩)))
    simpa [filled] using hi

/-- The lists with further slots of `c` claimed before and behind. -/
def padded (σ : C → List A) (c : C) (pre post : List (Option A)) : C → List (Option A) :=
  update (filled σ) c (pre ++ (filled σ c ++ post))

theorem padded_self (σ : C → List A) (c : C) (pre post : List (Option A)) :
    padded σ c pre post c = pre ++ (filled σ c ++ post) := update_self ..

theorem padded_nil (σ : C → List A) (c : C) : padded σ c [] [] = filled σ := by
  simp [padded]

/-- STEP: the constructor makes its element while slots are claimed. The heads may have moved since the
    arguments were bound; the elements have not. -/
theorem ends_ctor {Q : A → World C A → Prop} {pre post : List (Option A)} {head' : C → ℕ}
    (h : Ring P head' (padded σ c pre post) w) (hc : ∀ i < (σ c).length,
      around P.capacity (head' c) (pre.length + i) = around P.capacity (head c) i)
    (hd : ∀ d, d ≠ c → head' d = head d) (hbound : Bound P head σ args ctor)
    (hret : ∀ a w', args.made σ = some a → Ring P head' (padded (args.leaves σ) c pre post) w' → Q a w')
    (hthrow : args.made σ = none → R w) : ctor.Ends w Q R := by
  cases args with
  | value a =>
    obtain rfl := hbound
    exact hret a w rfl h
  | throws =>
    obtain rfl := hbound
    exact hthrow rfl
  | element d i make leave =>
    obtain ⟨hi, rfl⟩ := hbound
    have hmade : (Source.element d i make leave).made σ = some (make (σ d)[i]) := by
      simp [Source.made, hi]
    have hmodify : ((σ d).modify i leave).map some = ((σ d).map some).set i (some (leave (σ d)[i])) := by
      rw [List.modify_eq_set_get leave hi, List.map_set]
      rfl
    rcases eq_or_ne d c with rfl | hdc
    · rw [← hc i hi]
      refine ends_construct h (a := (σ d)[i]) ?_ fun w' hw' => hret _ w' hmade ?_
      · rw [padded_self, List.getElem?_append_right (by omega), Nat.add_sub_cancel_left,
          List.getElem?_append_left (by simpa [filled] using hi)]
        simp [filled, hi]
      · convert hw' using 1
        funext b
        rcases eq_or_ne b d with rfl | hb
        · simp [padded, Source.leaves, filled, hmodify, List.set_append_right, List.set_append_left, hi]
        · simp [padded, Source.leaves, filled, hb]
    · rw [← hd d hdc]
      refine ends_construct h (a := (σ d)[i]) ?_ fun w' hw' => hret _ w' hmade ?_
      · simp [padded, filled, hi, hdc]
      · convert hw' using 1
        refine ext_two c d ?_ ?_ fun b hb hbd => ?_
        · simp [padded, Source.leaves, filled, Ne.symm hdc]
        · simp [padded, Source.leaves, filled, hdc, hmodify]
        · simp [padded, Source.leaves, filled, hb, hbd]

/-! ### Insertion at an end -/

/-- Where the head is after a new element at an end, and where that element is. -/
def headAfter (P : Params A) (head : C → ℕ) (c : C) : End → C → ℕ
  | .back => head
  | .front => retreated P head c

def newSlot (P : Params A) (head : C → ℕ) (σ : C → List A) (c : C) : End → ℕ
  | .back => around P.capacity (head c) (σ c).length
  | .front => before P.capacity (head c)

theorem claimBack_filled (σ : C → List A) (c : C) : claimBack (filled σ) c = padded σ c [] [none] := rfl

theorem claimFront_filled (σ : C → List A) (c : C) : claimFront (filled σ) c = padded σ c [none] [] := by
  simp [claimFront, padded]

theorem Source.length_leaves (args : Source C A) (σ : C → List A) (c : C) :
    (args.leaves σ c).length = (σ c).length := by
  cases args with
  | value a => rfl
  | throws => rfl
  | element d i make leave =>
    rcases eq_or_ne c d with rfl | hdc
    · simp [leaves]
    · simp [leaves, hdc]

/-- At the back: the constructor runs behind a claimed slot. -/
theorem ends_ctor_back {Q : World C A → Prop} (hbound : Bound P head σ args ctor)
    (hret : ∀ a w', args.made σ = some a →
      Ring P head (filled (update (args.leaves σ) c (args.leaves σ c ++ [a]))) w' → Q w')
    (hthrow : args.made σ = none → ∀ w', Ring P head (filled σ) w' → R w')
    (w₁ : World C A) (h₁ : Ring P head (claimBack (filled σ) c) w₁) :
    ctor.Ends w₁ (Awaits P c (around P.capacity (head c) (filled σ c).length) Q) fun w₂ =>
      Ring P head (claimBack (filled σ) c) w₂ ∧ ∀ w₃, Ring P head (filled σ) w₃ → R w₃ := by
  have hpadded := h₁
  rw [claimBack_filled] at hpadded
  refine ends_ctor hpadded (by simp) (fun _ _ => rfl) hbound ?_ ?_
  · intro a w₂ hmade h₂
    refine ⟨head, _, (σ c).length, h₂, ?_, by simp [filled], fun w₃ h₃ => hret a w₃ hmade ?_⟩
    · simp [padded_self, filled, args.length_leaves]
    · convert h₃ using 1
      rw [filled_update]
      funext d
      rcases eq_or_ne d c with rfl | hd
      · simp [padded, filled, args.length_leaves]
      · simp [padded, hd]
  · exact fun hmade => ⟨h₁, hthrow hmade⟩

/-- At the front: the head has moved. -/
theorem ends_ctor_front {Q : World C A → Prop} (h : Ring P head (filled σ) w)
    (hroom : (σ c).length < P.capacity) (hbound : Bound P head σ args ctor)
    (hret : ∀ a w', args.made σ = some a → Ring P (retreated P head c)
      (filled (update (args.leaves σ) c (a :: args.leaves σ c))) w' → Q w')
    (hthrow : args.made σ = none → ∀ w', Ring P head (filled σ) w' → R w')
    (w₁ : World C A) (h₁ : Ring P (retreated P head c) (claimFront (filled σ) c) w₁) :
    ctor.Ends w₁ (Awaits P c (before P.capacity (head c)) Q) fun w₂ =>
      Ring P (retreated P head c) (claimFront (filled σ) c) w₂ ∧
        ∀ w₃, Ring P head (filled σ) w₃ → R w₃ := by
  have hhead := h.head_lt c (by omega)
  have hpadded := h₁
  rw [claimFront_filled] at hpadded
  refine ends_ctor hpadded ?_ ?_ hbound ?_ ?_
  · intro i hi
    rw [retreated, update_self, List.length_singleton, Nat.add_comm, around_before hhead (by omega)]
  · intro d hd
    rw [retreated, update_of_ne hd]
  · intro a w₂ hmade h₂
    refine ⟨_, _, 0, h₂, by simp [padded_self], ?_, fun w₃ h₃ => hret a w₃ hmade ?_⟩
    · rw [retreated, update_self, around_zero (before_lt hhead)]
    · convert h₃ using 1
      rw [filled_update]
      funext d
      rcases eq_or_ne d c with rfl | hd
      · simp [padded, filled]
      · simp [padded, hd]
  · exact fun hmade => ⟨h₁, hthrow hmade⟩

/-- STEP: an insertion where there is room. -/
theorem ends_tryEmplaceAt {Q : Bool → World C A → Prop} (e : End) (h : Ring P head (filled σ) w)
    (hroom : (σ c).length < P.capacity) (hbound : Bound P head σ args ctor)
    (hret : ∀ a w', args.made σ = some a → Ring P (headAfter P head c e)
      (filled (update (args.leaves σ) c (e.add a (args.leaves σ c)))) w' → Q true w')
    (hthrow : args.made σ = none → ∀ w', Ring P head (filled σ) w' → R w') :
    (tryEmplaceAt P c ctor e).Ends w Q R := by
  have hfilled : (filled σ c).length < P.capacity := by simpa [filled] using hroom
  cases e with
  | back => exact ends_tryEmplaceBack h hfilled (ends_ctor_back hbound hret hthrow)
  | front => exact ends_tryEmplaceFront h hfilled (ends_ctor_front h hroom hbound hret hthrow)

theorem ends_emplaceAt {Q : ℕ → World C A → Prop} (e : End) (h : Ring P head (filled σ) w)
    (hroom : (σ c).length < P.capacity) (hbound : Bound P head σ args ctor)
    (hret : ∀ a w', args.made σ = some a → Ring P (headAfter P head c e)
      (filled (update (args.leaves σ) c (e.add a (args.leaves σ c)))) w' → Q (newSlot P head σ c e) w')
    (hthrow : args.made σ = none → ∀ w', Ring P head (filled σ) w' → R w') :
    (emplaceAt P c ctor e).Ends w Q R := by
  have hfilled : (filled σ c).length < P.capacity := by simpa [filled] using hroom
  cases e with
  | back =>
    have hslot : newSlot P head σ c .back = around P.capacity (head c) (filled σ c).length := by
      simp [newSlot, filled]
    rw [hslot] at hret
    exact ends_emplaceBack h hfilled (ends_ctor_back hbound hret hthrow)
  | front => exact ends_emplaceFront h hfilled (ends_ctor_front h hroom hbound hret hthrow)

/-! ### Overwriting -/

/-- The arguments once the front of `c` is gone. -/
def Source.shift (c : C) : Source C A → Source C A
  | .element d i make leave => .element d (if d = c then i - 1 else i) make leave
  | args => args

/-- Arguments that spare the front make the same of the remaining elements. -/
theorem Source.shift_eq {x : A} {t : List A} (hspares : args.spares c = true) (hσ : σ c = x :: t)
    (hbound : Bound P head σ args ctor) (hfit : (σ c).length ≤ P.capacity) (hhead : head c < P.capacity) :
    Bound P (update head c (around P.capacity (head c) 1)) (update σ c t) (args.shift c) ctor ∧
      (args.shift c).made (update σ c t) = args.made σ ∧ (args.shift c).leaves (update σ c t) =
        update (args.leaves σ) c (args.leaves σ c).tail := by
  cases args with
  | value a => exact ⟨hbound, rfl, by simp [leaves, shift, hσ]⟩
  | throws => cases hspares
  | element d i make leave =>
    obtain ⟨hi, rfl⟩ := hbound
    rcases eq_or_ne d c with rfl | hdc
    · obtain ⟨i, rfl⟩ := Nat.exists_eq_succ_of_ne_zero ((of_decide_eq_true hspares) rfl)
      rw [hσ, List.length_cons] at hi hfit
      refine ⟨⟨?_, ?_⟩, ?_, ?_⟩
      · simpa using hi
      · have hslot : around P.capacity (around P.capacity (head d) 1) i =
            around P.capacity (head d) (i + 1) := by
          have hnext := around_before (around_lt hhead (i := 1) (by omega)) (i := i) (by omega)
          rw [before_around hhead] at hnext
          exact hnext.symm
        simp [hslot]
      · simp [made, shift, hσ]
      · simp [leaves, shift, hσ]
    · refine ⟨⟨?_, ?_⟩, ?_, ?_⟩
      · simpa [hdc] using hi
      · simp [hdc]
      · simp [made, shift, hdc]
      · refine ext_two c d ?_ ?_ fun b hb hbd => ?_
        · simp [leaves, shift, Ne.symm hdc, hσ]
        · simp [leaves, shift, hdc]
        · simp [leaves, shift, hb, hbd]

omit [DecidableEq C] in
theorem oldest_of_full {l : List A} (hcap : 0 < P.capacity) (hfull : l.length = P.capacity) :
    ∃ x t, l = x :: t ∧ t.length < P.capacity := by
  rcases l with _ | ⟨x, t⟩
  · rw [List.length_nil] at hfull
    omega
  · rw [List.length_cons] at hfull
    exact ⟨x, t, rfl, by omega⟩

/-- STEP: on a full ring the oldest element goes and the new one comes. -/
theorem ends_pushOverwrite {Q : ℕ → World C A → Prop} (h : Ring P head (filled σ) w)
    (hcap : 0 < P.capacity) (hbound : Bound P head σ args ctor)
    (hspares : (σ c).length = P.capacity → P.movable = true ∨ args.spares c = true)
    (hret : ∀ a head' w', args.made σ = some a →
      Ring P head' (filled (next P σ (.pushOverwrite c args))) w' →
      Q (around P.capacity (head' c) ((next P σ (.pushOverwrite c args) c).length - 1)) w')
    (hthrow : args.made σ = none → ∀ w', Ring P head (filled σ) w' → R w') :
    (pushOverwrite P c ctor).Ends w Q R := by
  have hfits := h.fits c
  have hhead := h.head_lt c hcap
  simp only [filled, List.length_map] at hfits
  refine ends_bind (ends_sizeOf h.holds ?_)
  change (ite ((filled σ c).length = P.capacity) _ _ : Prog (World C A) ℕ).Ends w _ _
  by_cases hfull : (σ c).length = P.capacity
  · have hnext : ∀ a, args.made σ = some a → next P σ (.pushOverwrite c args) =
        update (args.leaves σ) c ((args.leaves σ c).tail ++ [a]) := by
      intro a hmade
      simp [next, overwrite, hfull, hmade]
    rw [if_pos (by simpa [filled] using hfull)]
    by_cases hmovable : P.movable = true
    · rw [if_pos hmovable]
      rw [← padded_nil σ c] at h
      refine ends_bind (ends_ctor h (by simp) (fun _ _ => rfl) hbound ?_ fun hmade => ?_)
      · intro a w₁ hmade h₁
        rw [padded_nil] at h₁
        obtain ⟨x, t, hxt, hroom⟩ := oldest_of_full hcap ((args.length_leaves σ c).trans hfull)
        refine ends_bind (ends_popFront h₁ (a := x) (l := t.map some) (by simp [filled, hxt]) ?_)
        intro w₂ h₂
        rw [← filled_update] at h₂
        have hvalue : Bound P (update head c (around P.capacity (head c) 1))
            (update (args.leaves σ) c t) (.value a) (pure a) := rfl
        refine ends_emplaceAt .back h₂ (by simpa using hroom) hvalue ?_ (by simp [Source.made])
        intro b w₃ hb h₃
        obtain rfl := Option.some.inj hb
        have hpushed := hret a (update head c (around P.capacity (head c) 1)) w₃ hmade
        rw [hnext a hmade, hxt] at hpushed
        simp only [List.tail_cons, update_self, List.length_append, List.length_singleton,
          Nat.add_sub_cancel] at hpushed
        simp only [newSlot, update_self]
        refine hpushed ?_
        simpa [Source.leaves, headAfter, End.add] using h₃
      · rw [padded_nil] at h
        exact hthrow hmade w h
    · rw [if_neg hmovable]
      have hsp := (hspares hfull).resolve_left hmovable
      obtain ⟨x, t, hxt, hroom⟩ := oldest_of_full hcap hfull
      obtain ⟨hbound', hmade', hleaves'⟩ := Source.shift_eq hsp hxt hbound hfits hhead
      refine ends_bind (ends_popFront h (a := x) (l := t.map some) (by simp [filled, hxt]) ?_)
      intro w₁ h₁
      rw [← filled_update] at h₁
      refine ends_emplaceAt .back h₁ (by simpa using hroom) hbound' ?_ ?_
      · intro a w₂ hmade h₂
        rw [hmade'] at hmade
        have hpushed := hret a (update head c (around P.capacity (head c) 1)) w₂ hmade
        rw [hnext a hmade] at hpushed
        have hlen : (args.leaves σ c).tail.length = t.length := by
          rw [List.length_tail, args.length_leaves, hxt, List.length_cons, Nat.add_sub_cancel]
        simp only [update_self, List.length_append, List.length_singleton,
          Nat.add_sub_cancel, hlen] at hpushed
        simp only [newSlot, update_self]
        refine hpushed ?_
        simpa [hleaves', headAfter, End.add] using h₂
      · intro hmade
        rw [hmade'] at hmade
        cases args with
        | throws => cases hsp
        | value a => cases hmade
        | element d i make leave => simp [Source.made, hbound.1] at hmade
  · rw [if_neg (by simpa [filled] using hfull)]
    refine ends_emplaceAt .back h (by omega) hbound ?_ hthrow
    intro a w₁ hmade h₁
    have hnext : next P σ (.pushOverwrite c args) =
        update (args.leaves σ) c (args.leaves σ c ++ [a]) := by
      simp [next, insert, hfull, hmade, End.add]
    have hpushed := hret a head w₁ hmade
    rw [hnext] at hpushed
    simp only [update_self, List.length_append, List.length_singleton, Nat.add_sub_cancel,
      args.length_leaves] at hpushed
    exact hpushed h₁

end Metl.RingCore
