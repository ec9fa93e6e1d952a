import Metl.Tables.FlatMoves
import Metl.Tables.FlatSwap
import Metl.Schemes.Run

/-! Exceptions in `flat_map` and `flat_set`.

        exec op ──▶ returns        sorted, with the operation done
                ──▶ throws         untouched, empty, or with one key out of place

    Every call that throws inside a guarded region ends with an empty container, and one that throws
    before anything was moved leaves it untouched. What remains is the unguarded move. -/

namespace Metl.FlatMap

open Metl.Schemes Metl.Schemes.Storage Metl.Schemes.Prog Function

variable {C K V : Type} [DecidableEq C] {T : Traits} {capacity : ℕ} {spoilt : Prop}
  {σ : C → List (Entry K V)} {ls : C → K → K → Bool} {w w' : World C K V} {c d : C}
  {n index : ℕ} {e : Entry K V} {key : K} {value : V}

/-! ### Insertion -/

/-- The position an insertion shifts from is the lower bound of an absent key. -/
structure Fits (capacity : ℕ) (lt : K → K → Bool) (l : List (Entry K V)) (key : K) (index : ℕ) :
    Prop where
  splits : Splits lt l key index
  absent : ∀ a, l[index]? = some a → lt key a.key = true
  room : l.length < capacity

/-- The assignments of the shift; they are guarded. -/
theorem ends_shiftGuarded {τ : Shape C K V} (h : Rep capacity σ ls w)
    (hsorted : ∀ x, SortedBy (ls x) (σ x)) (hno : ¬ spoilt)
    (hw : Has τ (update (lengths σ) c ((σ c).length + 1)) ls w')
    (hhole : Hole σ c (σ c) ((σ c).length - 1) τ)
    (halive : (τ (c, (σ c).length - 1)).isSome = true) (hindex : index < (σ c).length) : (Prog.onThrow (do
        shiftLoop T c index ((σ c).length - 1)
        assignLocal T c index e)
      (clear c)).Ends w'
      (fun _ w'' => Has (shapeOf (update σ c ((σ c).insertIdx index e)))
        (update (lengths σ) c ((σ c).length + 1)) ls w'')
      fun w'' => Ordered capacity spoilt w'' := by
  -- a throw finds every slot below the size alive
  have hclear : ∀ w₁ τ₁, Packed σ c ((σ c).length + 1) τ₁ →
      Has τ₁ (update (lengths σ) c ((σ c).length + 1)) ls w₁ →
      (clear c).Ends w₁ (fun _ w'' => Ordered capacity spoilt w'')
        fun w'' => Ordered capacity spoilt w'' := by
    intro w₁ τ₁ hpacked h₁
    refine ends_clear h₁ (fun j => ?_) fun w₂ h₂ => ?_
    · rw [hpacked.alive j, update_self]
    · rw [update_idem] at h₂
      exact h.ordered_empty hsorted hno (h₂.congr (emptied_eq hpacked.elsewhere))
  refine ends_onThrow (ends_bind (ends_shiftLoop hw hhole halive (by omega) (by omega) ?_ hclear))
  intro w₁ τ₁ hhole₁ halive₁ h₁
  obtain ⟨a, ha⟩ := Option.isSome_iff_exists.mp halive₁
  refine ends_assignLocal h₁ ha (fun w₂ h₂ => ?_) fun w₂ τ₂ halter h₂ => ?_
  · exact h₂.congr (hhole₁.fill (by omega) e)
  · exact hclear w₂ τ₂ ((hhole₁.packed (by omega) halive₁).one halter (by omega)) h₂

theorem Rep.inserted (h : Rep capacity σ ls w) (hfits : Fits capacity (ls c) (σ c) e.key index)
    (hw : Has (shapeOf (Function.update σ c ((σ c).insertIdx index e)))
      (Function.update (lengths σ) c ((σ c).length + 1)) ls w') :
    Rep capacity (Function.update σ c ((σ c).insertIdx index e)) ls w' := by
  have hlength : ((σ c).insertIdx index e).length = (σ c).length + 1 :=
    List.length_insertIdx_of_le_length hfits.splits.bound ..
  have hroom := hfits.room
  refine h.update ?_ (by omega)
  rw [hlength]
  exact hw

omit [DecidableEq C] in
theorem Fits.sorted (hfits : Fits capacity (ls c) (σ c) e.key index) (h : Rep capacity σ ls w)
    (hsorted : ∀ x, SortedBy (ls x) (σ x)) : SortedBy (ls c) ((σ c).insertIdx index e) :=
  (hsorted c).insertIdx (h.order c) hfits.splits hfits.absent

section

variable (h : Rep capacity σ ls w) (hsorted : ∀ x, SortedBy (ls x) (σ x))
include h hsorted

/-- An insertion before the end, into elements that can be assigned. -/
theorem ends_insertBefore (hfits : Fits capacity (ls c) (σ c) e.key index)
    (hindex : index < (σ c).length) : (do
      constructFrom T c (σ c).length c ((σ c).length - 1)
      setSize c ((σ c).length + 1)
      Prog.onThrow (do
          shiftLoop T c index ((σ c).length - 1)
          assignLocal T c index e)
        (clear c) : Prog (World C K V) Unit).Ends w
      (fun _ w' => Rep capacity (update σ c ((σ c).insertIdx index e)) ls w')
      fun w' => Ordered capacity (SpoilsMove T (c, (σ c).length - 1) w) w' := by
  have hlast : (σ c).length - 1 < (σ c).length := by omega
  have he : (σ c)[(σ c).length - 1]? = some (σ c)[(σ c).length - 1] := List.getElem?_eq_getElem hlast
  refine ends_bind (ends_bind (ends_moveFirst h hsorted he fun w₁ τ₁ hno halter h₁ => ?_))
  refine ends_construct h₁ ?_ fun w₂ h₂ => ?_
  · rw [halter.same (c, (σ c).length) (by simp; omega), shapeOf_end]
  refine ends_bind (ends_setSize h₂ fun w₃ h₃ => ?_)
  refine (ends_shiftGuarded h hsorted hno h₃ ⟨fun m hm => ?_, fun m hm => ?_, fun p hp => ?_⟩ ?_
    hindex).mono (fun _ _ => h.inserted hfits) fun _ h' => h'
  · rw [update_of_ne (by simp; omega), halter.same (c, m) (by simp; omega)]
    rfl
  · by_cases hm' : m = (σ c).length
    · rw [hm', update_self, he]
    · rw [update_of_ne (by simp [hm']), halter.same (c, m) (by simp; omega)]
      exact (hole_end σ c).above m (by omega)
  · rw [update_of_ne (fun heq => hp (by rw [heq]))]
    exact Elsewhere.one (fun p _ => rfl) halter p hp
  · rw [update_of_ne (by simp; omega)]
    exact halter.alive

/-- An insertion into elements that cannot be assigned: all its moves are guarded. -/
theorem ends_insertRebuilding (hfits : Fits capacity (ls c) (σ c) e.key index) : (do
      shiftRightFrom T c index (σ c).length (σ c).length
      Prog.onThrow (do
          moveLocal T T.nothrowMoveKey T.nothrowMoveValue
          constructAt (c, index) e)
        (abandon c index ((σ c).length + 1))
      setSize c ((σ c).length + 1) : Prog (World C K V) Unit).Ends w
      (fun _ w' => Rep capacity (update σ c ((σ c).insertIdx index e)) ls w')
      fun w' => Ordered capacity False w' := by
  have hbound := hfits.splits.bound
  refine ends_bind (ends_shiftRightFrom h.has (hole_end σ c) (shapeOf_end σ c) (Nat.le_refl _) hbound
    (fun w₁ τ₁ hhole hdead h₁ => ?_) fun w₁ h₁ => h.ordered_empty hsorted id h₁)
  refine ends_bind (ends_onThrow (ends_bind (ends_moveLocal h₁ (fun w₂ h₂ => ?_) fun w₂ h₂ => ?_)))
  · refine ends_construct h₂ hdead fun w₃ h₃ => ends_setSize h₃ fun w₄ h₄ => ?_
    exact h.inserted hfits (h₄.congr (hhole.fill hbound e))
  · refine ends_abandon h₂ (fun j => ?_) (by omega) fun w₃ h₃ => ?_
    · rcases Nat.lt_trichotomy j index with hlt | rfl | hgt
      · rw [hhole.below j hlt, alive_iff]
        omega
      · simp [hdead]
      · rw [hhole.above j hgt, alive_iff]
        omega
    · exact h.ordered_empty hsorted id (h₃.congr (emptied_eq hhole.elsewhere))

theorem ends_insertShifting (hfits : Fits capacity (ls c) (σ c) e.key index) :
    (insertShifting T c index e).Ends w
      (fun _ w' => Rep capacity (update σ c ((σ c).insertIdx index e)) ls w')
      fun w' => Ordered capacity (SpoilsAfter T (pure
        (if T.assignable ∧ index ≠ (σ c).length then some (c, (σ c).length - 1) else none)) w) w' := by
  have hbound := hfits.splits.bound
  have hnone : False ↔ SpoilsAfter T (pure none) w := iff_of_false id not_spoilsAfter_none
  refine ends_bind (h.ends_sizeOf ?_)
  by_cases hassign : T.assignable = true
  · rw [if_pos hassign]
    by_cases hindex : index = (σ c).length
    · rw [if_pos hindex, if_neg fun hand => hand.2 hindex]
      refine ends_bind (ends_moveLocal h.has (fun w₁ h₁ => ?_) fun w₁ h₁ => ?_)
      · refine ends_bind (ends_construct h₁ (shapeOf_end σ c) fun w₂ h₂ => ?_)
        refine ends_setSize h₂ fun w₃ h₃ => h.inserted hfits ?_
        rw [hindex]
        exact h₃.congr ((hole_end σ c).fill (Nat.le_refl _) e)
      · exact Rep.ordered ⟨h₁, h.room, h.order⟩ hsorted not_spoilsAfter_none
    · rw [if_neg hindex, if_pos ⟨hassign, hindex⟩]
      exact (ends_insertBefore h hsorted hfits (by omega)).mono (fun _ _ h' => h')
        fun w' h' => h'.congr spoilsAfter_some.symm
  · rw [if_neg hassign, if_neg fun hand => hassign hand.1]
    exact (ends_insertRebuilding h hsorted hfits).mono (fun _ _ h' => h') fun w' h' => h'.congr hnone

/-- STEP: `try_insert_at`. -/
theorem ends_tryInsertAt (hsplits : Splits (ls c) (σ c) key index)
    (habsent : ∀ a, (σ c)[index]? = some a → ls c key a.key = true) :
    (tryInsertAt T capacity c index key value).Ends w (fun _ w' => Ordered capacity False w')
      fun w' => Ordered capacity (SpoilsAfter T (insertFirstMove T capacity c index) w) w' := by
  refine ends_bind_ordered (h.ends_sizeOf ?_)
  by_cases hfull : (σ c).length = capacity
  · rw [if_pos hfull]
    exact ends_pure (h.ordered hsorted id)
  · rw [if_neg hfull, if_neg hfull]
    refine ends_bind_ordered (ends_moveLocal h.has (fun w₁ h₁ => ?_) fun w₁ h₁ => ?_)
    · have hroom := h.room c
      have h₁ : Rep capacity σ ls w₁ := ⟨h₁, h.room, h.order⟩
      have hfits : Fits capacity (ls c) (σ c) (⟨key, value⟩ : Entry K V).key index :=
        ⟨hsplits, habsent, by omega⟩
      refine ends_bind ((ends_insertShifting h₁ hsorted hfits).mono (fun _ w₂ h₂ => ?_) fun _ h₂ => h₂)
      exact ends_pure (h₂.ordered ((sorted_update hsorted).mpr (hfits.sorted h hsorted)) id)
    · exact Rep.ordered ⟨h₁, h.room, h.order⟩ hsorted id

/-! ### Removal -/

/-- STEP: `erase_at`. -/
theorem ends_eraseAt (hindex : index < (σ c).length) : (eraseAt T c index).Ends w
      (fun _ w' => Rep capacity (update σ c ((σ c).eraseIdx index)) ls w')
      fun w' => Ordered capacity (SpoilsMove T (c, index) w) w' := by
  have he : (σ c)[index]? = some (σ c)[index] := List.getElem?_eq_getElem hindex
  have hlength : ((σ c).eraseIdx index).length = (σ c).length - 1 := List.length_eraseIdx_of_lt hindex
  have hroom := h.room c
  refine ends_bind (ends_moveFirst h hsorted he fun w₁ τ₁ hno halter h₁ => ?_)
  obtain ⟨a, ha⟩ := Option.isSome_iff_exists.mp halter.alive
  refine ends_bind (ends_destroy h₁ ha fun w₂ h₂ => ?_)
  refine ends_bind (ends_sizeOf h₂ ?_)
  have hgap : Gap σ c (σ c) index index (update τ₁ (c, index) none) := by
    refine ⟨fun m hm => ?_, update_self .., fun m hm => ?_, fun p hp => ?_⟩
    · rw [update_of_ne (by simp; omega), halter.same (c, m) (by simp; omega),
        List.getElem?_eraseIdx_of_lt hm]
      rfl
    · rw [update_of_ne (by simp; omega), halter.same (c, m) (by simp; omega)]
      rfl
    · rw [update_of_ne (fun heq => hp (by rw [heq])), halter.same p (fun heq => hp (by rw [heq]))]
      rfl
  refine ends_bind (ends_closeGap h₂ hgap (Nat.le_refl _) ?_ (fun w₃ h₃ => ?_)
    fun w₃ h₃ => h.ordered_empty hsorted hno h₃)
  · change index + 1 + ((σ c).length - 1 - index) = (σ c).length
    omega
  · refine ends_setSize h₃ fun w₄ h₄ => ?_
    refine h.update ?_ (by omega)
    rw [hlength]
    exact h₄

end

theorem Rep.erased (h : Rep capacity (Function.update σ c ((σ c).eraseIdx index)) ls w)
    (hsorted : ∀ x, SortedBy (ls x) (σ x)) : Ordered capacity False w :=
  h.ordered ((sorted_update hsorted).mpr ((hsorted c).eraseIdx index)) id

/-! ### The operations -/

omit [DecidableEq C] in
theorem ends_harden {S : Prop} {b : Bool} {Q : Unit → World C K V → Prop} {R : World C K V → Prop}
    (h : b = true → Q () w) (hstop : b = false → S) : (harden b).EndsOr S w Q R := by
  cases b with
  | true => exact ends_pure (h rfl)
  | false => exact ends_stop (hstop rfl)

variable {α : Type} {a : Entry K V} {actions : List (Action C K V)}

omit [DecidableEq C] in
/-- What follows a search, for a key that is there and for one that is not. -/
theorem ends_locate_bind {f : ℕ × Bool → Prog (World C K V) α}
    {g : ℕ × Bool → Prog (World C K V) (Option (C × ℕ))} {Q : α → World C K V → Prop}
    (h : Rep capacity σ ls w) (hsorted : ∀ x, SortedBy (ls x) (σ x))
    (hpresent : ∀ w₁ index a, Rep capacity σ ls w₁ → (σ c)[index]? = some a →
      (f (index, true)).EndsOr True w₁ Q
        fun w' => Ordered capacity (SpoilsAfter T (g (index, true)) w₁) w')
    (habsent : ∀ w₁ index, Rep capacity σ ls w₁ → Splits (ls c) (σ c) key index →
      (∀ a, (σ c)[index]? = some a → ls c key a.key = true) → (f (index, false)).EndsOr True w₁ Q
        fun w' => Ordered capacity (SpoilsAfter T (g (index, false)) w₁) w') :
    (locate T c key >>= f).EndsOr True w Q
      fun w' => Ordered capacity (SpoilsAfter T (locate T c key >>= g) w) w' := by
  refine ends_bind_ordered (EndsOr.weaken (ends_locate h.has rfl (hsorted c) (h.order c) ?_ ?_))
  · rintro w₁ ⟨index, present⟩ hfound h₁
    cases present with
    | true =>
      obtain ⟨a, ha, -⟩ := hfound.present rfl
      exact hpresent w₁ index a ⟨h₁, h.room, h.order⟩ ha
    | false => exact habsent w₁ index ⟨h₁, h.room, h.order⟩ hfound.splits (hfound.absent rfl)
  · intro w₁ _ h₁
    exact Rep.ordered ⟨h₁, h.room, h.order⟩ hsorted id

/-- The value under a key that is there is assigned: the keys stay. -/
theorem ends_assignValue (h : Rep capacity σ ls w) (ha : (σ c)[index]? = some a) :
    (assignValue T c index value).Ends w
      (fun _ w' => Rep capacity (update σ c ((σ c).set index { a with value := value })) ls w')
      fun w' => Rep capacity σ ls w' := by
  refine ends_bind (ends_call h.has (fun _ w₁ h₁ => ?_) fun w₁ _ h₁ => ⟨h₁, h.room, h.order⟩)
  refine ends_bind (ends_read h₁ ha (ends_write h₁ ha fun w₂ h₂ => h.update ?_ ?_))
  · rw [List.length_set]
    have hsize : update (lengths σ) c (σ c).length = lengths σ := update_eq_self c (lengths σ)
    rw [hsize]
    refine h₂.congr (shapeOf_update _ ?_ fun m => ?_)
    · exact Elsewhere.one (fun p _ => rfl) (alters_update (shapeOf σ) (c, index) _)
    · rcases eq_or_ne m index with rfl | hm
      · obtain ⟨hlen, -⟩ := List.getElem?_eq_some_iff.mp ha
        rw [update_self, List.getElem?_set_self hlen]
      · rw [update_of_ne (by simp [hm]), List.getElem?_set_ne (Ne.symm hm)]
        rfl
  · rw [List.length_set]
    exact h.room c

theorem ends_assignOrdered (h : Rep capacity σ ls w) (hsorted : ∀ x, SortedBy (ls x) (σ x))
    (ha : (σ c)[index]? = some a) (hno : ¬ spoilt) : (do
      assignValue T c index value
      pure true : Prog (World C K V) Bool).Ends w (fun _ w' => Ordered capacity False w')
      fun w' => Ordered capacity spoilt w' := by
  refine ends_bind ((ends_assignValue h ha).mono (fun _ w₁ h₁ => ends_pure ?_) fun w₁ h₁ => ?_)
  · exact h₁.ordered ((sorted_update hsorted).mpr ((hsorted c).set_value ha)) id
  · exact h₁.ordered hsorted hno

/-- What holds of every container holds after an exchange. -/
theorem exchanged_forall {β : Type} {f : C → α} {g : C → β} {P : α → β → Prop} (h : ∀ x, P (f x) (g x))
    (x : C) : P (exchanged f c d x) (exchanged g c d x) := by
  unfold exchanged
  rcases eq_or_ne x d with rfl | hxd
  · simpa using h c
  · rcases eq_or_ne x c with rfl | hxc
    · simpa [hxd] using h d
    · simpa [hxd, hxc] using h x

theorem Rep.exchanged {w' : World C K V} (h : Rep capacity σ ls w)
    (hw : Has (shapeOf (exchanged σ c d)) (exchanged (lengths σ) c d) (exchanged ls c d) w') :
    Rep capacity (exchanged σ c d) (exchanged ls c d) w' where
  has := by
    have hlengths : FlatMap.exchanged (lengths σ) c d = lengths (FlatMap.exchanged σ c d) := by
      rw [FlatMap.exchanged, FlatMap.exchanged, lengths_update, lengths_update]
      rfl
    rw [← hlengths]
    exact hw
  room := exchanged_forall (f := σ) (g := σ) (P := fun l _ => l.length ≤ capacity) h.room
  order := exchanged_forall (f := ls) (g := ls) (P := fun lt _ => StrictWeak lt) h.order

theorem ends_swapOrdered (h : Rep capacity σ ls w) (hsorted : ∀ x, SortedBy (ls x) (σ x))
    (hno : ¬ spoilt) :
    (swap T c d).Ends w (fun _ w' => Ordered capacity False w') fun w' => Ordered capacity spoilt w' := by
  refine ends_swap h.has (fun _ => rfl) (fun _ h' => h.ordered hsorted id) (fun w' _ h' => ?_) ?_
  · exact (h.exchanged h').ordered (exchanged_forall hsorted) id
  · intro w' ls' hls h'
    have horder : ∀ x, StrictWeak (ls' x) := by
      rcases hls with rfl | rfl
      · exact h.order
      · exact exchanged_forall (g := ls) (P := fun lt _ => StrictWeak lt) h.order
    have hempty : ∀ (P : (K → K → Bool) → List (Entry K V) → Prop) x, P (ls' x) [] →
        (x ≠ c → x ≠ d → P (ls' x) (σ x)) → P (ls' x) (update (update σ c []) d [] x) := by
      intro P x hnil hother
      rcases eq_or_ne x d with rfl | hxd
      · simpa using hnil
      · rcases eq_or_ne x c with rfl | hxc
        · simpa [hxd] using hnil
        · simpa [hxd, hxc] using hother hxc hxd
    have hrep : Rep capacity (update (update σ c []) d []) ls' w' := by
      refine ⟨?_, fun x => ?_, horder⟩
      · rw [lengths_update, lengths_update]
        exact h'
      · exact hempty (fun _ l => l.length ≤ capacity) x (Nat.zero_le _) fun _ _ => h.room x
    refine hrep.ordered (fun x => ?_) hno
    refine hempty SortedBy x List.Pairwise.nil fun hxc hxd => ?_
    rcases hls with rfl | rfl
    · exact hsorted x
    · simpa [exchanged, hxc, hxd] using hsorted x

/-- STEP: every operation returns with all containers sorted, or throws with all containers sorted
    exactly unless its unguarded move spoils the order. -/
theorem ends_exec (op : Op C K V) (h : Rep capacity σ ls w) (hsorted : ∀ x, SortedBy (ls x) (σ x)) :
    (exec T capacity op).EndsOr True w (fun _ w' => Ordered capacity False w')
      fun w' => Ordered capacity (Spoils T capacity op w) w' := by
  cases op with
  | tryEmplace c key value =>
    refine ends_locate_bind h hsorted (fun w₁ index a h₁ _ => ?_) fun w₁ index h₁ hs habsent => ?_
    · exact ends_pure (h₁.ordered hsorted id)
    · exact (ends_tryInsertAt h₁ hsorted hs habsent).weaken
  | emplace c key value =>
    refine ends_locate_bind h hsorted (fun w₁ index a h₁ _ => ?_) fun w₁ index h₁ hs habsent => ?_
    · exact ends_bind (ends_harden (fun hfalse => by cases hfalse) fun _ => trivial)
    · refine ends_bind (ends_harden (fun _ => ends_bind ?_) fun _ => trivial)
      exact (ends_tryInsertAt h₁ hsorted hs habsent).weaken.mono
        (fun _ w₂ h₂ => ends_bind (ends_harden (fun _ => ends_pure h₂) fun _ => trivial)) fun _ h₂ => h₂
  | tryInsertOrAssign c key value =>
    refine ends_locate_bind h hsorted (fun w₁ index a h₁ ha => ?_) fun w₁ index h₁ hs habsent => ?_
    · exact (ends_assignOrdered h₁ hsorted ha not_spoilsAfter_none).weaken
    · exact (ends_tryInsertAt h₁ hsorted hs habsent).weaken
  | insertOrAssign c key value =>
    refine ends_locate_bind h hsorted (fun w₁ index a h₁ ha => ?_) fun w₁ index h₁ hs habsent => ?_
    · exact (ends_assignOrdered h₁ hsorted ha not_spoilsAfter_none).weaken
    · exact ends_bind ((ends_tryInsertAt h₁ hsorted hs habsent).weaken.mono
        (fun _ w₂ h₂ => ends_bind (ends_harden (fun _ => ends_pure h₂) fun _ => trivial)) fun _ h₂ => h₂)
  | eraseKey c key =>
    refine ends_locate_bind h hsorted (fun w₁ index a h₁ ha => ?_) fun w₁ index h₁ _ _ => ?_
    · obtain ⟨hlen, -⟩ := List.getElem?_eq_some_iff.mp ha
      exact ends_bind ((ends_eraseAt h₁ hsorted hlen).weaken.mono
        (fun _ _ h₂ => ends_pure (h₂.erased hsorted)) fun _ h₂ => h₂.congr spoilsAfter_some.symm)
    · exact ends_pure (h₁.ordered hsorted id)
  | eraseAt c index =>
    refine ends_bind (EndsOr.weaken (h.ends_sizeOf ?_))
    refine ends_bind (ends_harden (fun hindex => ends_bind ?_) fun _ => trivial)
    exact (ends_eraseAt h hsorted (of_decide_eq_true hindex)).weaken.mono
      (fun _ _ h₂ => ends_pure (h₂.erased hsorted)) fun _ h₂ => h₂.congr spoilsAfter_some.symm
  | swap c d =>
    exact ends_bind ((ends_swapOrdered h hsorted not_spoilsAfter_none).weaken.mono
      (fun _ _ h₂ => ends_pure h₂) fun _ h₂ => h₂)

/-! ### Runs -/

omit [DecidableEq C] in
theorem Rep.withScript (h : Rep capacity σ ls w) (script : List (Call K V)) :
    Rep capacity σ ls (withScript w script) where
  has := by
    obtain ⟨old, hw⟩ := h.has
    refine ⟨script, hw.shape, ?_, hw.ledger⟩
    rw [FlatMap.withScript, hw.regs_eq]
  room := h.room
  order := h.order

/-- No step of the program throws in an unguarded move that leaves a key out of place. -/
def Unspoilt (T : Traits) (capacity : ℕ) (w : World C K V) : List (Action C K V) → Prop
  | [] => True
  | a :: as => ¬ Spoils T capacity a.op (withScript w a.script) ∧
    ∀ w', step T capacity w a = some w' → Unspoilt T capacity w' as

theorem step_ordered {a : Action C K V} (h : Ordered capacity False w)
    (hno : ¬ Spoils T capacity a.op (withScript w a.script))
    (hstep : step T capacity w a = some w') : Ordered capacity False w' := by
  obtain ⟨σ, ls, hrep, hsorted⟩ := h
  have hends := ends_exec (T := T) a.op (hrep.withScript a.script) (hsorted.mpr id)
  unfold EndsOr at hends
  unfold step at hstep
  split at hstep
  · rename_i w₁ hexec
    rw [Option.some.injEq] at hstep
    rw [hexec] at hends
    exact hstep ▸ hends
  · rename_i w₁ hexec
    rw [Option.some.injEq] at hstep
    rw [hexec] at hends
    exact hstep ▸ Ordered.congr hends (iff_of_false hno id)
  · cases hstep
  · cases hstep

omit [DecidableEq C] in
theorem init_ordered {less : C → K → K → Bool} (hless : ∀ c, StrictWeak (less c)) :
    Ordered capacity False (init less : World C K V) := by
  have hrep : Rep capacity (fun _ => []) less (init less : World C K V) :=
    ⟨⟨[], fun p => rfl, rfl, Ledger.init⟩, fun _ => Nat.zero_le _, hless⟩
  exact hrep.ordered (fun _ => List.Pairwise.nil) id

/-- RUN: while no step spoils, every container is sorted. -/
theorem run_ordered (h : Ordered capacity False w) (hkept : Unspoilt T capacity w actions)
    (hrun : run (step T capacity) w actions = some w') : Ordered capacity False w' := by
  induction actions generalizing w with
  | nil =>
    rw [run_nil, Option.some.injEq] at hrun
    exact hrun ▸ h
  | cons a as ih =>
    obtain ⟨w₁, hstep, hrest⟩ := run_cons_some.mp hrun
    exact ih (step_ordered h hkept.1 hstep) (hkept.2 w₁ hstep) hrest

omit [DecidableEq C] in
/-- In a set, and in a map whose values move without throwing, the unguarded moves are safe. -/
theorem not_spoils {op : Op C K V} (h : T.isMap = false ∨ (T.nothrowMoveValue || T.noExceptions) = true) :
    ¬ Spoils T capacity op w := by
  rintro ⟨p, w₁, -, left, rest, -, ⟨hmap, hcan, -⟩, -⟩
  rcases h with hset | hcannot
  · rw [hset] at hmap
    cases hmap
  · rw [hcannot] at hcan
    cases hcan

theorem unspoilt (h : T.isMap = false ∨ (T.nothrowMoveValue || T.noExceptions) = true) :
    Unspoilt T capacity w actions := by
  induction actions generalizing w with
  | nil => trivial
  | cons a as ih => exact ⟨not_spoils h, fun w₁ _ => ih⟩

/-- What a program must find after an exception. -/
structure Intact (T : Traits) (w : World C K V) : Prop where
  alive : ∀ c n, (w.cell (c, n)).isSome = true ↔ n < w.regs.size c
  ledger : Ledger (fun p => (w.cell p).map Prod.fst) w.built w.destroyed
  sorted : ∀ c, SortedBy (w.regs.less c) (entries w c)
  -- when no comparison throws
  found : ∀ c n e, (entries w c)[n]? = some e →
    ∃ w', locate { T with noExceptions := true } c e.key w = .ret (n, true) w'

omit [DecidableEq C] in
theorem Rep.found (h : Rep capacity σ ls w) (hsorted : ∀ x, SortedBy (ls x) (σ x))
    (he : (σ c)[n]? = some e) :
    ∃ w', locate { T with noExceptions := true } c e.key w = .ret (n, true) w' := by
  have hends : (locate { T with noExceptions := true } c e.key).Ends w
      (fun found _ => found = (n, true)) fun _ => False := by
    refine ends_locate h.has rfl (hsorted c) (h.order c) (fun w₁ found hfound _ => ?_) ?_
    · exact hfound.self (h.order c) (hsorted c) he
    · intro w₁ hno
      cases hno
  obtain ⟨found, w', hret, rfl⟩ := hends.returns
  exact ⟨w', hret⟩

omit [DecidableEq C] in
theorem Ordered.intact_iff (h : Ordered capacity spoilt w) : Intact T w ↔ ¬ spoilt := by
  obtain ⟨σ, ls, hrep, hiff⟩ := h
  obtain ⟨script, hw⟩ := hrep.has
  have hless : w.regs.less = ls := by rw [hw.regs_eq]
  have hsize : w.regs.size = lengths σ := by rw [hw.regs_eq]
  have hentries := entries_eq hrep.has
  rw [← hiff]
  constructor
  · intro h c
    rw [← hless, ← hentries]
    exact h.sorted c
  · intro hsorted
    refine ⟨fun c n => ?_, hw.ledger, fun c => ?_, fun c n e he => ?_⟩
    · have hshape := congrArg Option.isSome (hw.shape (c, n))
      rw [Option.isSome_map] at hshape
      rw [hshape, hsize]
      exact alive_iff (σ c) n
    · rw [hless, hentries]
      exact hsorted c
    · rw [hentries] at he
      exact hrep.found hsorted he

/-- CORRECT: after every program whose exceptions so far have kept the order, an operation that exits
    by an exception leaves every container alive exactly below its size, sorted and searchable, with no
    element lost or destroyed twice, exactly unless it throws in its unguarded move with a key left out
    of place. -/
theorem exception_keeps_order (T : Traits) (capacity : ℕ) (less : C → K → K → Bool)
    (hless : ∀ c, StrictWeak (less c)) (actions : List (Action C K V)) (w : World C K V)
    (hrun : run (step T capacity) (init less) actions = some w)
    (hkept : Unspoilt T capacity (init less) actions) (op : Op C K V) (script : List (Call K V))
    (w' : World C K V) (hthrow : exec T capacity op (withScript w script) = .thrown w') :
    Intact T w' ↔ ¬ Spoils T capacity op (withScript w script) := by
  obtain ⟨σ, ls, hrep, hsorted⟩ := run_ordered (init_ordered hless) hkept hrun
  exact ((ends_exec op (hrep.withScript script) (hsorted.mpr id)).thrown hthrow).intact_iff

/-- A map whose moves may all throw. -/
def throwingTraits : Traits where
  isMap := true
  assignable := true
  nothrowMoveKey := false
  nothrowMoveValue := false
  nothrowSwapKey := false
  nothrowSwapValue := false
  nothrowSwapCompare := false
  noExceptions := false

def below (a b : ℕ) : Bool := decide (a < b)

theorem below_strictWeak : StrictWeak below where
  asymm := fun a b h => by
    simp only [below, decide_eq_true_eq, decide_eq_false_iff_not] at h ⊢
    omega
  trans := fun a b c hab hbc => by
    simp only [below, decide_eq_false_iff_not] at hab hbc ⊢
    omega

/-- Keys 2 and 5, each inserted without exceptions. -/
def twoKeys : List (Action (Fin 1) ℕ ℕ) := [⟨.emplace 0 2 20, []⟩, ⟨.emplace 0 5 50, []⟩]

/-- A move that leaves its source as it was. -/
def unharmed : Call ℕ ℕ := .leaves ⟨id, id⟩

/-- A move that leaves 0. -/
def zeroed : Call ℕ ℕ := .leaves ⟨fun _ => 0, fun _ => 0⟩

/-- The key 3 goes between the two, and the moves that follow the search and the construction of the new
    entry do as said. -/
def insertThree (T : Traits) (moves : List (Call ℕ ℕ)) (w : World (Fin 1) ℕ ℕ) :
    Outcome (World (Fin 1) ℕ ℕ) Bool :=
  exec T 4 (.tryEmplace 0 3 30)
    (withScript w ([unharmed, unharmed, unharmed, unharmed, unharmed] ++ moves))

/-- The assignment of the new entry throws after the shift: the map is empty afterwards. -/
theorem exception_keeps_order_sample : ∃ w w',
    run (step { throwingTraits with nothrowMoveValue := true } 4) (init fun _ => below) twoKeys =
      some w ∧
    insertThree { throwingTraits with nothrowMoveValue := true } [zeroed, zeroed, .throws] w =
      .thrown w' ∧
    entries w' 0 = [] ∧ w'.destroyed = [2, 1, 0] ∧
    Intact { throwingTraits with nothrowMoveValue := true } w' := by
  have houtcome : ((run (step { throwingTraits with nothrowMoveValue := true } 4)
      (init fun _ => below) twoKeys).bind fun w =>
        (insertThree { throwingTraits with nothrowMoveValue := true }
          [zeroed, zeroed, .throws] w).state).map
      (fun w' => (entries w' 0, w'.destroyed)) = some ([], [2, 1, 0]) := by
    decide +kernel
  obtain ⟨w', hw', hout⟩ := Option.map_eq_some_iff.mp houtcome
  obtain ⟨w, hrun, hexec⟩ := Option.bind_eq_some_iff.mp hw'
  obtain ⟨hentries, hdestroyed⟩ := Prod.mk.inj hout
  have hthrow := Outcome.state_eq_some.mp hexec
  refine ⟨w, w', hrun, hthrow, hentries, hdestroyed, ?_⟩
  exact (exception_keeps_order _ 4 (fun _ => below) (fun _ => below_strictWeak) twoKeys w hrun
    (unspoilt (Or.inr rfl)) _ _ w' hthrow).mpr (not_spoils (Or.inr rfl))

/-- The first move of the insertion, of the last entry, leaves the key 0 and throws at the value: the map
    holds 2 and 0, and does not find the 0. -/
theorem unguarded_move_loses_order : StrictWeak below ∧ ∃ w w',
    run (step throwingTraits 4) (init fun _ => below) twoKeys = some w ∧
    insertThree throwingTraits [zeroed, .throws] w = .thrown w' ∧
    (entries w' 0).map Entry.key = [2, 0] ∧
    (∃ w'', locate throwingTraits 0 0 w' = .ret (0, false) w'') ∧ ¬ Intact throwingTraits w' := by
  refine ⟨below_strictWeak, _, _, rfl, rfl, by decide, ⟨_, rfl⟩, fun hintact => ?_⟩
  have hsorted := hintact.sorted 0
  revert hsorted
  unfold SortedBy
  decide

end Metl.FlatMap
