import Metl.Tables.FlatCalls
import Metl.Tables.FlatExceptions

/-! What the calls of `flat_map` do to the lists the containers hold.

        append_sorted_from        c   a b · ·          c   a b c ·
        (other = d)               d   ? ? c      ──▶   d   ? ? ?

        erase_if                  kept │ x rest        the kept ones are those of the part looked at

    The rules are for calls that return; one that throws is not followed any further. -/

namespace Metl.FlatMap

open Metl.Schemes Metl.Schemes.Storage Metl.Schemes.Prog Function

variable {C K V A : Type} {T : Traits} {capacity : ℕ} {σ : C → List (Entry K V)}
  {ls : C → K → K → Bool} {w : World C K V} {c d : C} {l : List (Entry K V)} {key : K}

/-! ### Lookup -/

/-- What an argument designates in the lists. -/
def Arg.resolve (part : Entry K V → A) (σ : C → List (Entry K V)) : Arg C A → Option A
  | .value a => some a
  | .element d n => ((σ d)[n]?).map part

variable {R : World C K V → Prop} {pred : K → V → Bool} {τ : Shape C K V} {sz : C → ℕ}
  {lt : K → K → Bool} {w' : World C K V} {r i : ℕ} {P : Params K}

theorem ends_argRead {part : Entry K V → A} {a : Arg C A} {x : A} {Q : A → World C K V → Prop}
    (h : Rep capacity σ ls w) (hx : a.resolve part σ = some x) (hret : Q x w) :
    (a.read part).Ends w Q R := by
  cases a with
  | value a =>
    cases hx
    exact ends_pure hret
  | element d n =>
    obtain ⟨e, he, rfl⟩ := Option.map_eq_some_iff.mp hx
    exact ends_bind (ends_read h.has he (ends_pure hret))

section Search
variable {R : World C K V → Prop}

variable {Q : ℕ → World C K V → Prop} {lt : K → K → Bool}

theorem ends_lowerBoundIndex (h : Rep capacity σ ls w) (hsorted : SortedBy (ls c) (σ c))
    (hret : ∀ w' index, Splits (ls c) (σ c) key index → Rep capacity σ ls w' → Q index w')
    (hthrow : ∀ w', T.noExceptions = false → R w') : (lowerBoundIndex T c key).Ends w Q R := by
  refine ends_bind (h.ends_sizeOf ?_)
  exact ends_lowerBoundLoop h.has hsorted (h.order c) (Nat.le_refl _) (window_all _ _)
    (fun w₁ index hs h₁ => hret w₁ index hs ⟨h₁, h.room, h.order⟩) fun w₁ hno _ => hthrow w₁ hno

/-- The keys not after `key` come first. -/
theorem SortedBy.falls_after (h : SortedBy lt l) (hlt : StrictWeak lt) (key : K) :
    Falls (fun e : Entry K V => !lt key e.key) l := by
  intro i j a b hij ha hb hnot
  simp only [Bool.not_eq_true'] at hnot ⊢
  exact hlt.trans _ _ _ hnot (hlt.asymm _ _ (h.increasing hij ha hb))

/-- RUN: the search for the upper bound keeps the window. -/
theorem ends_upperBoundLoop {fuel first count : ℕ} (h : Rep capacity σ ls w)
    (hsorted : SortedBy (ls c) (σ c)) (hfuel : count ≤ fuel)
    (hwindow : Window (fun e => !ls c key e.key) (σ c) first count)
    (hret : ∀ w' index, SplitsAt (fun e => !ls c key e.key) (σ c) index → Rep capacity σ ls w' →
      Q index w') (hthrow : ∀ w', T.noExceptions = false → R w') :
    (upperBoundLoop T c key fuel first count).Ends w Q R := by
  have hfalls := hsorted.falls_after (h.order c) key
  induction fuel generalizing first count w with
  | zero =>
    obtain rfl : count = 0 := by omega
    exact hret w first hwindow.splitsAt h
  | succ fuel ih =>
    cases count with
    | zero => exact hret w first hwindow.splitsAt h
    | succ count =>
      rw [upperBoundLoop]
      have hhalf : (count + 1) / 2 < count + 1 := by omega
      obtain ⟨e, he⟩ := hwindow.element hhalf
      refine ends_bind (ends_read h.has he ?_)
      refine ends_bind (ends_compare h.has (fun w₁ h₁ => ?_) fun w₁ hno _ => hthrow w₁ hno)
      have h₁ : Rep capacity σ ls w₁ := ⟨h₁, h.room, h.order⟩
      cases hcomp : ls c key e.key with
      | true => exact ih h₁ (by omega) (hwindow.left hfalls hhalf he (by simp [hcomp]))
      | false => exact ih h₁ (by omega) (hwindow.right hfalls hhalf he (by simp [hcomp]))

theorem ends_upperBoundIndex (h : Rep capacity σ ls w) (hsorted : SortedBy (ls c) (σ c))
    (hret : ∀ w' index, SplitsAt (fun e => !ls c key e.key) (σ c) index → Rep capacity σ ls w' →
      Q index w') (hthrow : ∀ w', T.noExceptions = false → R w') :
    (upperBoundIndex T c key).Ends w Q R := by
  refine ends_bind (h.ends_sizeOf ?_)
  exact ends_upperBoundLoop h hsorted (Nat.le_refl _) (window_all _ _) hret hthrow

/-- The search for the upper bound may start at the lower one. -/
theorem Splits.window {lo : ℕ} (hlt : StrictWeak lt) (hs : Splits lt l key lo) :
    Window (fun e : Entry K V => !lt key e.key) l lo (l.length - lo) where
  bound := by
    have := hs.bound
    omega
  below := fun n e hn he => by simp [hlt.asymm _ _ ((hs.before n e he).mpr hn)]
  above := fun n e hn he => by
    obtain ⟨hlen, -⟩ := List.getElem?_eq_some_iff.mp he
    omega

theorem ends_equalRange {Q : ℕ × ℕ → World C K V → Prop} (h : Rep capacity σ ls w)
    (hsorted : SortedBy (ls c) (σ c)) (hret : ∀ w' lo hi, Splits (ls c) (σ c) key lo →
      SplitsAt (fun e => !ls c key e.key) (σ c) hi → Rep capacity σ ls w' → Q (lo, hi) w')
    (hthrow : ∀ w', T.noExceptions = false → R w') : (equalRange T c key).Ends w Q R := by
  refine ends_bind (ends_lowerBoundIndex h hsorted (fun w₁ lo hs h₁ => ?_) hthrow)
  refine ends_bind (ends_bind (h₁.ends_sizeOf ?_))
  exact ends_upperBoundLoop h₁ hsorted (Nat.le_refl _) (hs.window (h.order c))
    (fun w₂ hi hhi h₂ => ends_pure (hret w₂ lo hi hs hhi h₂)) hthrow

end Search

variable [DecidableEq C]

/-! ### Emptying and erasing -/

/-- An element built after the last one. -/
theorem Rep.push {e : Entry K V} (h : Rep capacity σ ls w) (hroom : (σ c).length < capacity)
    (hw : Has (Function.update (shapeOf σ) (c, (σ c).length) (some e))
      (Function.update (lengths σ) c ((σ c).length + 1)) ls w') :
    Rep capacity (Function.update σ c (σ c ++ [e])) ls w' := by
  refine h.update ?_ (by simp; omega)
  rw [List.length_append, List.length_singleton, ← List.insertIdx_length_self]
  exact hw.congr ((hole_end σ c).fill (Nat.le_refl _) e)

/-- The comparator of one container is replaced. -/
theorem Rep.compare (h : Rep capacity σ ls w) (hlt : StrictWeak lt)
    (hw : Has (shapeOf σ) (lengths σ) (Function.update ls c lt) w') :
    Rep capacity σ (Function.update ls c lt) w' where
  has := hw
  room := h.room
  order := (Function.forall_update_iff ls (p := fun _ lt => StrictWeak lt)).mpr
    ⟨hlt, fun x _ => h.order x⟩

/-- All elements moved across, and their remains destroyed. -/
theorem Moving.emptied (h : Moving σ c d (σ d).length τ) (hcd : c ≠ d) (p : C × ℕ) :
    FlatMap.emptied τ d p = shapeOf (update (update σ c (σ d)) d []) p := by
  refine emptied_eq (fun q hq => ?_) p
  obtain ⟨x, n⟩ := q
  rcases eq_or_ne x c with rfl | hx
  · rw [h.here, update_self]
    split
    · rfl
    · rw [List.getElem?_eq_none (by omega)]
  · rw [h.elsewhere (x, n) hx hq, update_of_ne hx]

end Metl.FlatMap
