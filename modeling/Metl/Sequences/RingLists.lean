import Metl.Sequences.RingOperations

/-! Whole rings: clearing, copying, moving and swapping.

        c        a b            common part swapped       x y
        other    x y z t        the tail moved across     x y z t      and destroyed where it was
                                                          a b

    Each loop is followed by induction over the elements it still has to visit. In the end only the
    lists matter that the containers hold, not where their heads are. -/

namespace Metl.RingCore

open Metl.Schemes Metl.Schemes.Storage Metl.Schemes.Prog Function

variable {C A : Type} {P : Params A} {head : C → ℕ} {es : C → List (Option A)} {σ : C → List A}
  {w : World C A} {c other : C} {Q : Unit → World C A → Prop} {R : World C A → Prop} {fuel : ℕ}

/-- Lists all of whose elements are built. -/
def filled (σ : C → List A) (c : C) : List (Option A) := (σ c).map some

/-- Container `c` holds the list `σ c`, wherever its head is. -/
def Lists (P : Params A) (σ : C → List A) (w : World C A) : Prop := ∃ head, Ring P head (filled σ) w

theorem Ring.lists (h : Ring P head es w) (hes : es = filled σ) : Lists P σ w :=
  ⟨head, hes ▸ h⟩

theorem Lists.fits (h : Lists P σ w) (c : C) : (σ c).length ≤ P.capacity := by
  obtain ⟨head, hring⟩ := h
  simpa [filled] using hring.fits c

variable [DecidableEq C]

theorem filled_update (σ : C → List A) (c : C) (m : List A) :
    filled (update σ c m) = update (filled σ) c (m.map some) := by
  funext d
  unfold filled
  rcases eq_or_ne d c with rfl | hd
  · simp
  · simp [hd]

/-- Families that agree at two containers and everywhere else. -/
theorem ext_two {B : Type} {f g : C → B} (c other : C) (hc : f c = g c) (hother : f other = g other)
    (h : ∀ d, d ≠ c → d ≠ other → f d = g d) : f = g := by
  funext d
  by_cases hd : d = c
  · rw [hd, hc]
  · by_cases ho : d = other
    · rw [ho, hother]
    · exact h d hd ho

/-! ### Clearing -/

/-- RUN: every element is popped. -/
theorem ends_clearLoop (h : Lists P σ w) (hfuel : (σ c).length < fuel)
    (hret : ∀ w', Lists P (update σ c []) w' → Q () w') : (clearLoop P c fuel).Ends w Q R := by
  induction fuel generalizing σ w with
  | zero => omega
  | succ fuel ih =>
    obtain ⟨head, hring⟩ := h
    refine ends_bind (ends_sizeOf hring.holds ?_)
    change (ite ((filled σ c).length = 0) _ _ : Prog (World C A) Unit).Ends w _ _
    cases hσ : σ c with
    | nil =>
      rw [if_pos (by simp [filled, hσ])]
      refine ends_pure (hret w (hring.lists ?_))
      rw [← hσ, update_eq_self]
    | cons a m =>
      rw [if_neg (by simp [filled, hσ])]
      refine ends_bind (ends_popFront hring (a := a) (l := m.map some) (by simp [filled, hσ]) ?_)
      intro w' hw'
      rw [← filled_update] at hw'
      refine ih (hw'.lists rfl) ?_ ?_
      · simp only [update_self]
        rw [hσ, List.length_cons] at hfuel
        omega
      · rwa [update_idem]

theorem ends_clear (h : Lists P σ w) (hret : ∀ w', Lists P (update σ c []) w' → Q () w') :
    (clear P c).Ends w Q R := by
  have hfit := h.fits c
  exact ends_clearLoop h (by omega) hret

/-! ### Copying and moving -/

/-- Taking the element at a position gives its value and leaves `leave` of it. -/
def Takes (P : Params A) (take : C × ℕ → Prog (World C A) A) (leave : A → A) : Prop :=
  ∀ (head : C → ℕ) (es : C → List (Option A)) (w : World C A) (d : C) (i : ℕ) (x : A)
    (Q : A → World C A → Prop) (R : World C A → Prop), Ring P head es w → (es d)[i]? = some (some x) →
    (∀ w', Ring P head (update es d ((es d).set i (some (leave x)))) w' → Q x w') →
    (take (d, around P.capacity (head d) i)).Ends w Q R

theorem takes_copyFrom : Takes P (copyFrom (C := C)) id := by
  intro head es w d i x Q R hring hget hret
  refine ends_readAt hring.holds (hring.shape_at hget) (hret w ?_)
  obtain ⟨hi, hx⟩ := List.getElem?_eq_some_iff.mp hget
  have hsame : (es d).set i (some (id x)) = es d := by
    rw [id, ← hx, List.set_getElem_self]
  rw [hsame, update_eq_self]
  exact hring

theorem takes_moveFrom : Takes P (moveFrom (C := C) P) P.moved := by
  intro head es w d i x Q R hring hget hret
  change (construct (d, around P.capacity (head d) i) id P.moved).Ends w Q R
  exact ends_construct hring hget hret

variable {take : C × ℕ → Prog (World C A) A} {leave : A → A} {x : A} {i : ℕ}
  {keep : List (Option A)} {m : List A}

/-- STEP: one element is taken across. -/
theorem ends_appendOne {Q : ℕ → World C A → Prop} (htake : Takes P take leave) (hne : c ≠ other)
    (h : Ring P head es w) (hget : (es other)[i]? = some (some x)) (hroom : (es c).length < P.capacity)
    (hret : ∀ n w', Ring P head (update (update es c (es c ++ [some x])) other
      ((es other).set i (some (leave x)))) w' → Q n w') :
    (emplaceBack P c (take (other, around P.capacity (head other) i))).Ends w Q R := by
  refine ends_emplaceBack h hroom fun w₁ h₁ => ?_
  have hother : claimBack es c other = es other := update_of_ne hne.symm _ _
  refine htake head _ w₁ other i x _ _ h₁ (by rw [hother]; exact hget) fun w₂ h₂ => ?_
  refine ⟨head, _, (es c).length, h₂, ?_, rfl, fun w₃ h₃ => hret _ w₃ ?_⟩
  · rw [update_of_ne hne]
    simp [claimBack]
  · convert h₃ using 1
    refine ext_two c other (by simp [claimBack, hne]) (by simp [claimBack, hne.symm]) fun d hd ho => ?_
    simp [claimBack, hd, ho]

/-- RUN: the elements from position `done.length` on are taken across. -/
theorem ends_appendLoop (htake : Takes P take leave) (hne : c ≠ other) (todo : List A)
    (done : List (Option A)) (h : Ring P head es w) (hother : es other = done ++ todo.map some)
    (hroom : (es c).length + todo.length ≤ P.capacity) (hfuel : todo.length < fuel)
    (hret : ∀ w', Ring P head (update (update es c (es c ++ todo.map some)) other
      (done ++ (todo.map leave).map some)) w' → Q () w') :
    (appendLoop P take c other done.length fuel).Ends w Q R := by
  induction todo generalizing done es w fuel with
  | nil =>
    obtain ⟨fuel, rfl⟩ := Nat.exists_eq_succ_of_ne_zero (Nat.ne_of_gt hfuel)
    refine ends_bind (ends_sizeOf h.holds ?_)
    change (ite (done.length < (es other).length) _ _ : Prog (World C A) Unit).Ends w _ _
    rw [if_neg (by simp [hother])]
    refine ends_pure (hret w ?_)
    have hsame : update es c (es c) = es := update_eq_self c es
    simp only [List.map_nil, List.append_nil] at hother ⊢
    rw [hsame, ← hother, update_eq_self]
    exact h
  | cons x todo ih =>
    cases fuel with
    | zero => cases hfuel
    | succ fuel =>
      simp only [List.length_cons] at hroom hfuel
      have hlen : done.length < (es other).length := by simp [hother]
      refine ends_bind (ends_sizeOf h.holds ?_)
      change (ite (done.length < (es other).length) _ _ : Prog (World C A) Unit).Ends w _ _
      rw [if_pos hlen]
      refine ends_bind (ends_slotAt h hlen (ends_bind ?_))
      refine ends_appendOne htake hne h (x := x) (by simp [hother]) (by omega) fun n w₁ h₁ => ?_
      have hdone : done.length + 1 = (done ++ [some (leave x)]).length := by simp
      rw [hdone]
      refine ih _ h₁ ?_ ?_ (by omega) fun w₂ h₂ => hret w₂ ?_
      · simp [hother]
      · simp [hne]
        omega
      · convert h₂ using 1
        exact ext_two c other (by simp [hne]) (by simp) fun d hd ho => by simp [hd, ho]

/-- RUN: a copy of `other` is appended. -/
theorem ends_copyAll (hne : c ≠ other) (h : Lists P σ w) (hempty : σ c = [])
    (hret : ∀ w', Lists P (update σ c (σ other)) w' → Q () w') : (copyAll P c other).Ends w Q R := by
  have hfit := h.fits other
  obtain ⟨head, hring⟩ := h
  refine ends_appendLoop takes_copyFrom hne (σ other) [] hring rfl ?_ (by omega) ?_
  · simp [filled, hempty, hfit]
  · intro w' hw'
    refine hret w' (hw'.lists ?_)
    rw [filled_update]
    refine ext_two c other (by simp [filled, hempty, hne]) (by simp [filled, hne.symm]) fun d hd ho => ?_
    simp [hd, ho]

/-- RUN: the elements of `other` are moved, and what is left of them destroyed. -/
theorem ends_moveAll (hne : c ≠ other) (h : Lists P σ w) (hempty : σ c = [])
    (hret : ∀ w', Lists P (update (update σ c (σ other)) other []) w' → Q () w') :
    (moveAll P c other).Ends w Q R := by
  have hfit := h.fits other
  obtain ⟨head, hring⟩ := h
  refine ends_bind (ends_appendLoop takes_moveFrom hne (σ other) [] hring rfl ?_ (by omega) ?_)
  · simp [filled, hempty, hfit]
  · intro w₁ h₁
    have hlists : Lists P (update (update σ c (σ other)) other ((σ other).map P.moved)) w₁ := by
      refine h₁.lists ?_
      rw [filled_update, filled_update]
      simp [filled, hempty]
    refine ends_clear hlists fun w₂ h₂ => hret w₂ ?_
    rwa [update_idem] at h₂

/-! ### Swapping -/

/-- STEP: two elements of different containers change places. -/
theorem ends_swapElements {j : ℕ} {y : A} (hne : c ≠ other) (h : Ring P head es w)
    (hx : (es c)[i]? = some (some x)) (hy : (es other)[j]? = some (some y))
    (hret : ∀ w', Ring P head (update (update es c ((es c).set i (some y))) other
      ((es other).set j (some x))) w' → Q () w') :
    (swapElements P (c, around P.capacity (head c) i) (other, around P.capacity (head other) j)).Ends
      w Q R := by
  obtain ⟨hi, -⟩ := List.getElem?_eq_some_iff.mp hx
  obtain ⟨hj, -⟩ := List.getElem?_eq_some_iff.mp hy
  refine ends_bind (takes_moveFrom head es w c i x _ _ h hx fun w₁ h₁ => ends_bind ?_)
  refine takes_moveFrom head _ w₁ other j y _ _ h₁ ?_ fun w₂ h₂ => ends_bind ?_
  · rw [update_of_ne hne.symm]
    exact hy
  refine ends_writeElement h₂ (a := P.moved x) ?_ fun w₃ h₃ => ?_
  · rw [update_of_ne hne, update_self, List.getElem?_set_self hi]
  refine ends_writeElement h₃ (a := P.moved y) ?_ fun w₄ h₄ => hret w₄ ?_
  · rw [update_of_ne hne.symm, update_self, update_of_ne hne.symm, List.getElem?_set_self hj]
  · convert h₄ using 1
    exact ext_two c other (by simp [hne]) (by simp [hne.symm]) fun d hd ho => by simp [hd, ho]

/-- RUN: the elements at the positions from `dx.length` up to `common` change places. -/
theorem ends_swapLoop (hne : c ≠ other) (xs ys : List A) (dx dy rx ry : List (Option A))
    {common : ℕ} (h : Ring P head es w)
    (hc : es c = dx ++ (xs.map some ++ rx)) (hother : es other = dy ++ (ys.map some ++ ry))
    (hd : dx.length = dy.length) (hlen : xs.length = ys.length)
    (hcommon : common = dx.length + xs.length) (hfuel : xs.length < fuel)
    (hret : ∀ w', Ring P head (update (update es c (dx ++ (ys.map some ++ rx))) other
      (dy ++ (xs.map some ++ ry))) w' → Q () w') :
    (swapLoop P c other common dx.length fuel).Ends w Q R := by
  induction xs generalizing ys dx dy es w fuel with
  | nil =>
    obtain rfl := List.length_eq_zero_iff.mp hlen.symm
    obtain ⟨fuel, rfl⟩ := Nat.exists_eq_succ_of_ne_zero (Nat.ne_of_gt hfuel)
    unfold swapLoop
    rw [if_neg (by simp [hcommon])]
    refine ends_pure (hret w ?_)
    have hsame : update es c (es c) = es := update_eq_self c es
    rw [← hc, ← hother, hsame, update_eq_self]
    exact h
  | cons x xs ih =>
    cases ys with
    | nil => cases hlen
    | cons y ys =>
      cases fuel with
      | zero => cases hfuel
      | succ fuel =>
        simp only [List.length_cons, Nat.add_right_cancel_iff] at hlen hcommon hfuel
        unfold swapLoop
        rw [if_pos (by omega)]
        refine ends_bind (ends_slotAt h (by simp [hc]) (ends_bind (ends_slotAt h ?_ (ends_bind ?_))))
        · simp [hother, hd]
        refine ends_swapElements hne h (x := x) (y := y) (by simp [hc]) (by simp [hother, hd]) ?_
        intro w₁ h₁
        have hdone : dx.length + 1 = (dx ++ [some y]).length := by simp
        rw [hdone]
        refine ih ys _ (dy ++ [some x]) h₁ ?_ ?_ (by simp [hd]) hlen (by simp; omega) (by omega) fun w₂ h₂ => hret w₂ ?_
        · simp [hne, hc]
        · simp [hother, hd]
        · convert h₂ using 1
          exact ext_two c other (by simp [hne]) (by simp) fun d hdc ho => by simp [hdc, ho]

/-- RUN: all but the first `common` elements leave from the back. -/
theorem ends_shrinkLoop (h : Ring P head es w) (hc : es c = keep ++ m.map some)
    (hfuel : m.length < fuel) (hret : ∀ w', Ring P head (update es c keep) w' → Q () w') :
    (shrinkLoop P c keep.length fuel).Ends w Q R := by
  induction m using List.reverseRecOn generalizing es w fuel with
  | nil =>
    obtain ⟨fuel, rfl⟩ := Nat.exists_eq_succ_of_ne_zero (Nat.ne_of_gt hfuel)
    refine ends_bind (ends_sizeOf h.holds ?_)
    change (ite ((es c).length > keep.length) _ _ : Prog (World C A) Unit).Ends w _ _
    rw [if_neg (by simp [hc])]
    refine ends_pure (hret w ?_)
    simp only [List.map_nil, List.append_nil] at hc
    rw [← hc, update_eq_self]
    exact h
  | append_singleton m a ih =>
    cases fuel with
    | zero => cases hfuel
    | succ fuel =>
      refine ends_bind (ends_sizeOf h.holds ?_)
      change (ite ((es c).length > keep.length) _ _ : Prog (World C A) Unit).Ends w _ _
      rw [if_pos (by simp [hc])]
      refine ends_bind (ends_dropBack h (l := keep ++ m.map some) (a := a) (by simp [hc]) ?_)
      intro w₁ h₁
      rw [List.length_append, List.length_singleton] at hfuel
      refine ih h₁ (by simp) (by omega) fun w₂ h₂ => hret w₂ ?_
      rwa [update_idem] at h₂

theorem ends_moveTail (hne : c ≠ other) (h : Ring P head es w) (hother : es other = keep ++ m.map some)
    (hroom : (es c).length + m.length ≤ P.capacity) (hret : ∀ w', Ring P head
      (update (update es c (es c ++ m.map some)) other keep) w' → Q () w') :
    (moveTail P c other keep.length).Ends w Q R := by
  refine ends_bind (ends_appendLoop takes_moveFrom hne m keep h hother hroom (by omega) fun w₁ h₁ => ?_)
  refine ends_shrinkLoop h₁ (m := m.map P.moved) (by simp) (by simp; omega) fun w₂ h₂ => hret w₂ ?_
  rwa [update_idem] at h₂

/-- The two lists change places. -/
def exchange (σ : C → List A) (c other : C) : C → List A :=
  update (update σ c (σ other)) other (σ c)

/-- CORRECT: a swap exchanges the lists, whatever their heads and lengths. -/
theorem ends_swapCore (h : Lists P σ w) (hret : ∀ w', Lists P (exchange σ c other) w' → Q () w') :
    (swapCore P c other).Ends w Q R := by
  unfold swapCore
  rcases eq_or_ne c other with rfl | hne
  · rw [if_pos rfl]
    refine ends_pure (hret w ?_)
    unfold exchange
    rwa [update_idem, update_eq_self]
  rw [if_neg hne]
  have hc := h.fits c
  have hother := h.fits other
  obtain ⟨head, hring⟩ := h
  refine ends_bind (ends_sizeOf hring.holds (ends_bind (ends_sizeOf hring.holds (ends_bind ?_))))
  have hsize : ∀ d, lengths (filled σ) d = (σ d).length := by simp [lengths, filled]
  simp only [hsize]
  have hsplit : ∀ (l : List A) k, l.map some = (l.take k).map some ++ (l.drop k).map some := by
    intro l k
    rw [← List.map_append, List.take_append_drop]
  -- the shorter list is swapped as a whole
  rcases Nat.lt_trichotomy (σ c).length (σ other).length with hlt | heq | hgt
  · rw [if_pos hlt]
    refine ends_swapLoop hne (σ c) ((σ other).take (σ c).length) [] [] []
      (((σ other).drop (σ c).length).map some) hring (by simp [filled]) (hsplit _ _) rfl ?_ (by simp)
      (by omega) fun w₁ h₁ => ?_
    · rw [List.length_take]
      omega
    rw [if_neg (by omega), if_pos hlt]
    have hkeep : (σ c).length = ((σ c).map some : List (Option A)).length := by simp
    rw [hkeep]
    refine ends_moveTail hne h₁ (m := (σ other).drop (σ c).length) (by simp) ?_ fun w₂ h₂ => ?_
    · simp [hne]
      omega
    refine hret w₂ (h₂.lists ?_)
    unfold exchange
    rw [filled_update, filled_update]
    exact ext_two c other (by simp [hne]) (by simp) fun d hd ho => by simp [hd, ho]
  · rw [if_neg (by omega)]
    refine ends_swapLoop hne (σ c) (σ other) [] [] [] [] hring (by simp [filled]) (by simp [filled]) rfl heq (by simp [heq]) (by omega) fun w₁ h₁ => ?_
    rw [if_pos heq]
    refine ends_pure (hret w₁ (h₁.lists ?_))
    unfold exchange
    rw [filled_update, filled_update]
    simp
  · rw [if_neg (by omega)]
    refine ends_swapLoop hne ((σ c).take (σ other).length) (σ other) [] []
      (((σ c).drop (σ other).length).map some) [] hring (hsplit _ _) (by simp [filled]) rfl ?_ ?_
      ?_ fun w₁ h₁ => ?_
    · rw [List.length_take]
      omega
    · simp
      omega
    · rw [List.length_take]
      omega
    rw [if_neg (by omega), if_neg (by omega)]
    have hkeep : (σ other).length = ((σ other).map some : List (Option A)).length := by simp
    rw [hkeep]
    refine ends_moveTail (Ne.symm hne) h₁ (m := (σ c).drop (σ other).length) ?_ ?_ fun w₂ h₂ => ?_
    · simp [hne]
    · simp
      omega
    refine hret w₂ (h₂.lists ?_)
    unfold exchange
    rw [filled_update, filled_update]
    refine ext_two c other (by simp [hne]) (by simp [Ne.symm hne]) fun d hd ho => ?_
    simp [hd, ho]

end Metl.RingCore
