import Metl.Tables.FlatShifts
import Metl.Schemes.BinarySearch

/-! Binary search in the sorted slots of `flat_map`.

        keys   2   3   5   8        lower bound of 4: slot 2
               <   <   ≥   ≥

    The lower bound of a key splits the entries into those before the key and those not before it. A key
    that is absent may be inserted there, and every entry is found under its own key. -/

namespace Metl.FlatMap

open Metl.Schemes Metl.Schemes.Storage Metl.Schemes.Prog

variable {C K V : Type} {lt : K → K → Bool} {l : List (Entry K V)} {key : K} {index : ℕ}
  {e : Entry K V}

/-- The keys are strictly increasing. -/
def SortedBy (lt : K → K → Bool) (l : List (Entry K V)) : Prop :=
  l.Pairwise fun a b => lt a.key b.key = true

/-- The entries before `index` are those whose keys come before `key`. -/
structure Splits (lt : K → K → Bool) (l : List (Entry K V)) (key : K) (index : ℕ) : Prop where
  bound : index ≤ l.length
  before : ∀ n e, l[n]? = some e → (lt e.key key = true ↔ n < index)

theorem lt_trans_of (hlt : StrictWeak lt) {a b c : K} (hab : lt a b = true) (hbc : lt b c = true) :
    lt a c = true := by
  by_contra hac
  rw [Bool.not_eq_true] at hac
  have hfalse := hlt.trans a c b hac (hlt.asymm b c hbc)
  rw [hab] at hfalse
  cases hfalse

section

variable (h : SortedBy lt l)
include h

theorem SortedBy.increasing {i j : ℕ} {a b : Entry K V} (hij : i < j) (ha : l[i]? = some a)
    (hb : l[j]? = some b) : lt a.key b.key = true := by
  obtain ⟨hi, rfl⟩ := List.getElem?_eq_some_iff.mp ha
  obtain ⟨hj, rfl⟩ := List.getElem?_eq_some_iff.mp hb
  exact List.pairwise_iff_getElem.mp h i j hi hj hij

/-- The keys before `key` come first. -/
theorem SortedBy.falls_before (hlt : StrictWeak lt) (key : K) :
    Falls (fun e : Entry K V => lt e.key key) l :=
  fun _ _ _ _ hij ha hb hbefore => lt_trans_of hlt (h.increasing hij ha hb) hbefore

/-- A key that is absent goes in at its lower bound. -/
theorem SortedBy.insertIdx (hlt : StrictWeak lt) (hs : Splits lt l e.key index)
    (habsent : ∀ a, l[index]? = some a → lt e.key a.key = true) : SortedBy lt (l.insertIdx index e) := by
  refine List.pairwise_iff_getElem.mpr fun i j hi hj hij => ?_
  have hsome : ∀ n (hn : n < (l.insertIdx index e).length),
      (l.insertIdx index e)[n]? = some (l.insertIdx index e)[n] := fun n hn =>
    List.getElem?_eq_getElem hn
  have ha := hsome i hi
  have hb := hsome j hj
  generalize (l.insertIdx index e)[i] = a at ha ⊢
  generalize (l.insertIdx index e)[j] = b at hb ⊢
  -- after the insertion point an entry comes after the key
  have hafter : ∀ n a, index ≤ n → l[n]? = some a → lt e.key a.key = true := by
    intro n a hn ha
    rcases Nat.eq_or_lt_of_le hn with rfl | hgt
    · exact habsent a ha
    · obtain ⟨hlen, -⟩ := List.getElem?_eq_some_iff.mp ha
      have hfirst : l[index]? = some l[index] := List.getElem?_eq_getElem (by omega)
      exact lt_trans_of hlt (habsent _ hfirst) (h.increasing hgt hfirst ha)
  rcases Nat.lt_trichotomy i index with hlt | rfl | hgt
  · rw [List.getElem?_insertIdx_of_lt hlt] at ha
    rcases Nat.lt_trichotomy j index with hjlt | rfl | hjgt
    · rw [List.getElem?_insertIdx_of_lt hjlt] at hb
      exact h.increasing hij ha hb
    · rw [List.getElem?_insertIdx_self, if_pos hs.bound, Option.some.injEq] at hb
      subst hb
      exact (hs.before i a ha).mpr hlt
    · rw [List.getElem?_insertIdx_of_gt hjgt] at hb
      exact h.increasing (by omega) ha hb
  · rw [List.getElem?_insertIdx_self, if_pos hs.bound, Option.some.injEq] at ha
    subst ha
    rw [List.getElem?_insertIdx_of_gt hij] at hb
    exact hafter (j - 1) b (by omega) hb
  · rw [List.getElem?_insertIdx_of_gt hgt] at ha
    rw [List.getElem?_insertIdx_of_gt (by omega)] at hb
    exact h.increasing (by omega) ha hb

theorem SortedBy.eraseIdx (index : ℕ) : SortedBy lt (l.eraseIdx index) :=
  h.sublist (List.eraseIdx_sublist l index)

/-- Only the keys matter. -/
theorem SortedBy.set_value {v : V} (he : l[index]? = some e) :
    SortedBy lt (l.set index { e with value := v }) := by
  have hkeys : (l.set index { e with value := v }).map Entry.key = l.map Entry.key := by
    rw [List.map_set]
    refine List.ext_getElem? fun n => ?_
    rcases eq_or_ne n index with rfl | hn
    · obtain ⟨hlen, rfl⟩ := List.getElem?_eq_some_iff.mp he
      simp [hlen]
    · rw [List.getElem?_set_ne (Ne.symm hn)]
  have hpair : ∀ l : List (Entry K V), SortedBy lt l ↔ (l.map Entry.key).Pairwise fun a b => lt a b := by
    intro l
    rw [List.pairwise_map]
    rfl
  rw [hpair, hkeys, ← hpair]
  exact h

end

section Search
variable {T : Traits} {σ : C → List (Entry K V)} {sz : C → ℕ}
  {ls : C → K → K → Bool} {w : World C K V} {R : World C K V → Prop} {c : C}

/-- RUN: the search keeps the window. -/
theorem ends_lowerBoundLoop {Q : ℕ → World C K V → Prop} {fuel first count : ℕ}
    (h : Has (shapeOf σ) sz ls w) (hsorted : SortedBy (ls c) (σ c)) (hlt : StrictWeak (ls c))
    (hfuel : count ≤ fuel) (hwindow : Window (fun e => ls c e.key key) (σ c) first count)
    (hret : ∀ w' index, Splits (ls c) (σ c) key index → Has (shapeOf σ) sz ls w' → Q index w')
    (hthrow : ∀ w', T.noExceptions = false → Has (shapeOf σ) sz ls w' → R w') :
    (lowerBoundLoop T c key fuel first count).Ends w Q R := by
  have hfalls := hsorted.falls_before hlt key
  induction fuel generalizing first count w with
  | zero =>
    obtain rfl : count = 0 := by omega
    exact hret w first ⟨hwindow.bound, hwindow.splitsAt.before⟩ h
  | succ fuel ih =>
    cases count with
    | zero => exact hret w first ⟨hwindow.bound, hwindow.splitsAt.before⟩ h
    | succ count =>
      rw [lowerBoundLoop]
      have hhalf : (count + 1) / 2 < count + 1 := by omega
      obtain ⟨e, he⟩ := hwindow.element hhalf
      refine ends_bind (ends_read h he ?_)
      refine ends_bind (ends_compare h (fun w₁ h₁ => ?_) fun w₁ hno h₁ => hthrow w₁ hno h₁)
      cases hcomp : ls c e.key key with
      | true => exact ih h₁ (by omega) (hwindow.right hfalls hhalf he hcomp)
      | false => exact ih h₁ (by omega) (hwindow.left hfalls hhalf he hcomp)

/-- The position found, and whether the key there is equivalent. -/
structure Located (lt : K → K → Bool) (l : List (Entry K V)) (key : K) (found : ℕ × Bool) : Prop where
  splits : Splits lt l key found.1
  absent : found.2 = false → ∀ a, l[found.1]? = some a → lt key a.key = true
  present : found.2 = true → ∃ a, l[found.1]? = some a ∧ lt key a.key = false

theorem ends_locate {Q : ℕ × Bool → World C K V → Prop} (h : Has (shapeOf σ) sz ls w)
    (hsize : sz c = (σ c).length) (hsorted : SortedBy (ls c) (σ c)) (hlt : StrictWeak (ls c))
    (hret : ∀ w' found, Located (ls c) (σ c) key found → Has (shapeOf σ) sz ls w' → Q found w')
    (hthrow : ∀ w', T.noExceptions = false → Has (shapeOf σ) sz ls w' → R w') :
    (locate T c key).Ends w Q R := by
  refine ends_bind (ends_bind (ends_sizeOf h ?_))
  refine ends_lowerBoundLoop h hsorted hlt (Nat.le_refl _) ?_ (fun w₁ index hs h₁ => ?_) hthrow
  · rw [hsize]
    exact window_all _ _
  refine ends_bind (ends_sizeOf h₁ ?_)
  by_cases hindex : index < sz c
  · rw [if_pos hindex]
    have hread : (σ c)[index]? = some (σ c)[index] := List.getElem?_eq_getElem (by omega)
    refine ends_bind (ends_read h₁ hread ?_)
    refine ends_bind (ends_compare h₁ (fun w₂ h₂ => ?_) fun w₂ hno h₂ => hthrow w₂ hno h₂)
    refine hret w₂ _ ⟨hs, fun hafter a ha => ?_, fun hafter => ⟨_, hread, ?_⟩⟩ h₂
    · rw [hread, Option.some.injEq] at ha
      simpa [← ha] using hafter
    · simpa using hafter
  · rw [if_neg hindex]
    refine hret w₁ _ ⟨hs, fun _ a ha => ?_, fun hfalse => by cases hfalse⟩ h₁
    obtain ⟨hlen, -⟩ := List.getElem?_eq_some_iff.mp ha
    omega

/-- Every entry is found under its own key. -/
theorem Located.self {found : ℕ × Bool} {n : ℕ} (h : Located lt l e.key found) (hlt : StrictWeak lt)
    (hsorted : SortedBy lt l) (he : l[n]? = some e) : found = (n, true) := by
  have hindex : found.1 = n := by
    have hle : found.1 ≤ n := by
      by_contra hgt
      have hbefore := (h.splits.before n e he).mpr (by omega)
      rw [hlt.irrefl] at hbefore
      cases hbefore
    rcases Nat.eq_or_lt_of_le hle with heq | hlt'
    · exact heq
    · obtain ⟨hlen, -⟩ := List.getElem?_eq_some_iff.mp he
      have hread : l[found.1]? = some l[found.1] := List.getElem?_eq_getElem (by omega)
      have hbefore := (h.splits.before found.1 _ hread).mp (hsorted.increasing hlt' hread he)
      omega
  cases hpresent : found.2 with
  | true => exact Prod.ext hindex hpresent
  | false =>
    have hafter := h.absent hpresent e (hindex ▸ he)
    rw [hlt.irrefl] at hafter
    cases hafter

end Search

end Metl.FlatMap
