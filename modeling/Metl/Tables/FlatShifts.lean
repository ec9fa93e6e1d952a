import Metl.Tables.FlatMap
import Metl.Schemes.HeapOrder

/-! What the loops of `flat_map` do to the slots, along both ways out.

        l = [a, b, c, d], a hole at 2        a  b  ?  c  d        shifting right
        l = [a, b, c, d], a gap at 1         a  ·  c  d           closing the gap

    A loop that throws leaves every slot below the size alive, or all of them but the one being built;
    its handler then empties the container. -/

namespace Metl.FlatMap

open Metl.Schemes Metl.Schemes.Storage Metl.Schemes.Prog Function

variable {C K V : Type}

abbrev Shape (C K V : Type) := C × ℕ → Option (Entry K V)

/-- The slots, sizes and comparators, whatever calls are to come. -/
def Has (τ : Shape C K V) (sz : C → ℕ) (ls : C → K → K → Bool) (w : World C K V) : Prop :=
  ∃ script, Holds τ ⟨sz, ls, script⟩ w

section Calls
variable {T : Traits} {τ τ' : Shape C K V} {sz : C → ℕ} {ls : C → K → K → Bool} {w : World C K V}
  {nothrow : Bool} {R : World C K V → Prop} {c : C}

theorem Has.congr (h : Has τ sz ls w) (hτ : ∀ p, τ p = τ' p) : Has τ' sz ls w := by
  obtain ⟨script, h⟩ := h
  exact ⟨script, h.congr hτ⟩

/-- A call, with what it takes from the script. -/
theorem ends_call_script {Q : Left K V → World C K V → Prop} {script : List (Call K V)}
    (h : Holds τ ⟨sz, ls, script⟩ w) (hnil : script = [] → Q ⟨id, id⟩ w)
    (hleaves : ∀ w' left rest, script = .leaves left :: rest → Holds τ ⟨sz, ls, rest⟩ w' → Q left w')
    (hspared : ∀ w' rest, script = .throws :: rest → (nothrow || T.noExceptions) = true →
      Holds τ ⟨sz, ls, rest⟩ w' → Q ⟨id, id⟩ w')
    (hthrow : ∀ w' rest, script = .throws :: rest → (nothrow || T.noExceptions) = false →
      Holds τ ⟨sz, ls, rest⟩ w' → R w') : (call T nothrow).Ends w Q R := by
  have hrest : ∀ rest : List (Call K V), Holds τ ⟨sz, ls, rest⟩ (withScript w rest) := by
    intro rest
    refine ⟨h.shape, ?_, h.ledger⟩
    rw [withScript, h.regs_eq]
  have hw : w.regs.script = script := by rw [h.regs_eq]
  unfold Ends EndsOr call
  rw [hw]
  cases script with
  | nil => exact hnil rfl
  | cons first rest =>
    cases first with
    | leaves left => exact hleaves _ left rest rfl (hrest rest)
    | throws =>
      by_cases hno : (nothrow || T.noExceptions) = true
      · simp only [hno, if_true]
        exact hspared _ rest rfl hno (hrest rest)
      · simp only [hno]
        exact hthrow _ rest rfl (by simpa using hno) (hrest rest)

theorem ends_call {Q : Left K V → World C K V → Prop} (h : Has τ sz ls w)
    (hret : ∀ left w', Has τ sz ls w' → Q left w')
    (hthrow : ∀ w', (nothrow || T.noExceptions) = false → Has τ sz ls w' → R w') :
    (call T nothrow).Ends w Q R := by
  obtain ⟨script, h⟩ := h
  exact ends_call_script h (fun _ => hret _ w ⟨script, h⟩)
    (fun w' left rest _ h' => hret left w' ⟨rest, h'⟩) (fun w' rest _ _ h' => hret _ w' ⟨rest, h'⟩)
    fun w' rest _ hno h' => hthrow w' hno ⟨rest, h'⟩

theorem ends_sizeOf {Q : ℕ → World C K V → Prop} (h : Has τ sz ls w) (hret : Q (sz c) w) :
    (sizeOf c).Ends w Q R := by
  obtain ⟨script, h⟩ := h
  exact ends_bind (ends_getRegs h hret)

theorem ends_compare {Q : Bool → World C K V → Prop} {a b : K} (h : Has τ sz ls w)
    (hret : ∀ w', Has τ sz ls w' → Q (ls c a b) w')
    (hthrow : ∀ w', T.noExceptions = false → Has τ sz ls w' → R w') : (compare T c a b).Ends w Q R := by
  refine ends_bind (ends_call h (fun _ w₁ h₁ => ?_) fun w₁ hno h₁ => hthrow w₁ hno h₁)
  have hdone := hret w₁ h₁
  obtain ⟨script, h₁⟩ := h₁
  exact ends_bind (ends_getRegs h₁ hdone)

theorem ends_mapped {Q : Unit → World C K V → Prop} {m : Prog (World C K V) Unit}
    (hmap : T.isMap = true → m.Ends w Q R) (hset : T.isMap = false → Q () w) :
    (mapped T m).Ends w Q R := by
  unfold mapped
  split
  · rename_i h
    exact hmap h
  · rename_i h
    exact hset (by simpa using h)

theorem ends_moveLocal {Q : Unit → World C K V → Prop} {nothrowKey nothrowValue : Bool}
    (h : Has τ sz ls w) (hret : ∀ w', Has τ sz ls w' → Q () w') (hthrow : ∀ w', Has τ sz ls w' → R w') :
    (moveLocal T nothrowKey nothrowValue).Ends w Q R := by
  refine ends_bind (ends_call h (fun _ w₁ h₁ => ?_) fun w₁ _ h₁ => hthrow w₁ h₁)
  refine ends_mapped (fun _ => ?_) fun _ => hret w₁ h₁
  exact ends_bind (ends_call h₁ (fun _ w₂ h₂ => hret w₂ h₂) fun w₂ _ h₂ => hthrow w₂ h₂)

theorem ends_read {Q : Entry K V → World C K V → Prop} {p : C × ℕ} {e : Entry K V}
    (h : Has τ sz ls w) (hp : τ p = some e) (hret : Q e w) : (readAt p).Ends w Q R := by
  obtain ⟨script, h⟩ := h
  exact ends_readAt h hp hret

end Calls

/-- Of the slots, only `p` changed, and it is alive. -/
structure Alters (p : C × ℕ) (τ τ' : Shape C K V) : Prop where
  alive : (τ' p).isSome = true
  same : ∀ q, q ≠ p → τ' q = τ q

/-- Of the slots, only `p` and `q` changed, and both are alive. -/
structure AltersTwo (p q : C × ℕ) (τ τ' : Shape C K V) : Prop where
  left_alive : (τ' p).isSome = true
  right_alive : (τ' q).isSome = true
  same : ∀ r, r ≠ p → r ≠ q → τ' r = τ r

theorem alters_refl {τ : Shape C K V} {p : C × ℕ} {e : Entry K V} (he : τ p = some e) :
    Alters p τ τ := ⟨by simp [he], fun _ _ => rfl⟩

theorem Alters.trans {τ τ' τ'' : Shape C K V} {p : C × ℕ} (h : Alters p τ τ')
    (h' : Alters p τ' τ'') : Alters p τ τ'' :=
  ⟨h'.alive, fun q hq => (h'.same q hq).trans (h.same q hq)⟩

/-! ### Lists in slots -/

/-- Every container holds its list, from slot 0 on. -/
def shapeOf (σ : C → List (Entry K V)) : Shape C K V := fun p => (σ p.1)[p.2]?

/-- Apart from container `c`, the slots are those of `σ`. -/
def Elsewhere (σ : C → List (Entry K V)) (c : C) (τ : Shape C K V) : Prop :=
  ∀ p, p.1 ≠ c → τ p = (σ p.1)[p.2]?

/-- The entries of `l` stand around the hole at slot `i`. -/
structure Hole (σ : C → List (Entry K V)) (c : C) (l : List (Entry K V)) (i : ℕ)
    (τ : Shape C K V) : Prop where
  below : ∀ n, n < i → τ (c, n) = l[n]?
  above : ∀ n, i < n → τ (c, n) = l[n - 1]?
  elsewhere : Elsewhere σ c τ

/-- The first `n` slots of `c` are alive, and no others. -/
structure Packed (σ : C → List (Entry K V)) (c : C) (n : ℕ) (τ : Shape C K V) : Prop where
  alive : ∀ j, (τ (c, j)).isSome = true ↔ j < n
  elsewhere : Elsewhere σ c τ

/-- The entries of `l` without the one at `index`, as far as the gap at slot `i`. -/
structure Gap (σ : C → List (Entry K V)) (c : C) (l : List (Entry K V)) (index i : ℕ)
    (τ : Shape C K V) : Prop where
  below : ∀ n, n < i → τ (c, n) = (l.eraseIdx index)[n]?
  dead : τ (c, i) = none
  above : ∀ n, i < n → τ (c, n) = l[n]?
  elsewhere : Elsewhere σ c τ

section Lists
variable {σ : C → List (Entry K V)} {τ τ' : Shape C K V} {c : C} {l : List (Entry K V)}
  {i j n : ℕ}

theorem alive_iff {α : Type} (l : List α) (n : ℕ) : (l[n]?).isSome = true ↔ n < l.length := by
  rw [Option.isSome_iff_ne_none, ne_eq, List.getElem?_eq_none_iff, Nat.not_le]

theorem Elsewhere.two (h : Elsewhere σ c τ) (ha : AltersTwo (c, i) (c, j) τ τ') : Elsewhere σ c τ' := by
  intro p hp
  rw [ha.same p (fun heq => hp (by rw [heq])) (fun heq => hp (by rw [heq])), h p hp]

theorem Elsewhere.one (h : Elsewhere σ c τ) (ha : Alters (c, i) τ τ') : Elsewhere σ c τ' := by
  intro p hp
  rw [ha.same p (fun heq => hp (by rw [heq])), h p hp]

theorem Packed.two (h : Packed σ c n τ) (ha : AltersTwo (c, i) (c, j) τ τ') (hi : i < n)
    (hj : j < n) : Packed σ c n τ' where
  alive := fun k => by
    rcases eq_or_ne k i with rfl | hki
    · simp [ha.left_alive, hi]
    · rcases eq_or_ne k j with rfl | hkj
      · simp [ha.right_alive, hj]
      · rw [ha.same (c, k) (by simp [hki]) (by simp [hkj]), h.alive k]
  elsewhere := h.elsewhere.two ha

theorem Packed.one (h : Packed σ c n τ) (ha : Alters (c, i) τ τ') (hi : i < n) : Packed σ c n τ' where
  alive := fun k => by
    rcases eq_or_ne k i with rfl | hki
    · simp [ha.alive, hi]
    · rw [ha.same (c, k) (by simp [hki]), h.alive k]
  elsewhere := h.elsewhere.one ha

theorem Hole.packed (h : Hole σ c l i τ) (hi : i ≤ l.length) (halive : (τ (c, i)).isSome = true) :
    Packed σ c (l.length + 1) τ where
  alive := fun j => by
    rcases Nat.lt_trichotomy j i with hlt | rfl | hgt
    · rw [h.below j hlt, alive_iff]
      omega
    · simp only [halive, true_iff]
      omega
    · rw [h.above j hgt, alive_iff]
      omega
  elsewhere := h.elsewhere

/-- Before an insertion the hole is past the end. -/
theorem hole_end (σ : C → List (Entry K V)) (c : C) : Hole σ c (σ c) (σ c).length (shapeOf σ) where
  below := fun m _ => rfl
  above := fun m hm => by
    rw [List.getElem?_eq_none (by omega)]
    exact List.getElem?_eq_none (Nat.le_of_lt hm)
  elsewhere := fun p _ => rfl

theorem shapeOf_end (σ : C → List (Entry K V)) (c : C) : shapeOf σ (c, (σ c).length) = none :=
  List.getElem?_eq_none (Nat.le_refl _)

end Lists

variable [DecidableEq C] {T : Traits} {τ : Shape C K V} {sz : C → ℕ} {ls : C → K → K → Bool}
  {w : World C K V} {R : World C K V → Prop} {Q : Unit → World C K V → Prop} {c d : C}
  {i j n s : ℕ} {a b e : Entry K V} {p q : C × ℕ}

theorem ends_setSize (h : Has τ sz ls w) (hret : ∀ w', Has τ (update sz c n) ls w' → Q () w') :
    (setSize c n).Ends w Q R := by
  obtain ⟨script, h⟩ := h
  exact ends_modifyRegs h fun w' h' => hret w' ⟨script, h'⟩

theorem ends_write (h : Has τ sz ls w) (hp : τ p = some a)
    (hret : ∀ w', Has (update τ p (some b)) sz ls w' → Q () w') : (writeAt p b).Ends w Q R := by
  obtain ⟨script, h⟩ := h
  exact ends_writeAt h hp fun w' h' => hret w' ⟨script, h'⟩

theorem ends_construct (h : Has τ sz ls w) (hp : τ p = none)
    (hret : ∀ w', Has (update τ p (some a)) sz ls w' → Q () w') : (constructAt p a).Ends w Q R := by
  obtain ⟨script, h⟩ := h
  exact ends_constructAt h hp fun w' h' => hret w' ⟨script, h'⟩

theorem ends_destroy (h : Has τ sz ls w) (hp : τ p = some a)
    (hret : ∀ w', Has (update τ p none) sz ls w' → Q () w') : (destroyAt p).Ends w Q R := by
  obtain ⟨script, h⟩ := h
  exact ends_destroyAt h hp fun w' h' => hret w' ⟨script, h'⟩

/-! ### Entries -/

theorem alters_update (τ : Shape C K V) (p : C × ℕ) (e : Entry K V) : Alters p τ (update τ p (some e)) :=
  ⟨by simp, fun q hq => update_of_ne hq ..⟩

section

variable (h : Has τ sz ls w)
include h

/-- STEP: a move out of a slot gives its contents and leaves something alive there. -/
theorem ends_moveEntry {Q : Entry K V → World C K V → Prop} (he : τ p = some e) (hp : p = (c, n))
    (hret : ∀ w' τ', Alters p τ τ' → Has τ' sz ls w' → Q e w')
    (hthrow : ∀ w' τ', (T.relocateCannotThrow || T.noExceptions) = false → Alters p τ τ' →
      Has τ' sz ls w' → R w') : (moveEntry T c n).Ends w Q R := by
  subst hp
  refine ends_bind (ends_read h he ?_)
  refine ends_bind (ends_bind (ends_call h (fun left w₁ h₁ => ?_) fun w₁ hno h₁ => ?_))
  · refine ends_bind (ends_read h₁ he (ends_write h₁ he fun w₂ h₂ => ?_))
    have hkey := alters_update τ (c, n) { e with key := left.key e.key }
    refine ends_bind (ends_mapped (fun hmap => ?_) fun _ => hret w₂ _ hkey h₂)
    refine ends_bind (ends_call h₂ (fun left w₃ h₃ => ?_) fun w₃ hno h₃ => ?_)
    · refine ends_bind (ends_read h₃ (update_self ..) ?_)
      refine ends_write h₃ (update_self ..) fun w₄ h₄ => ?_
      exact hret w₄ _ (hkey.trans (alters_update _ _ _)) h₄
    · refine hthrow w₃ _ ?_ hkey h₃
      simp only [Bool.or_eq_false_iff] at hno
      simp [Traits.relocateCannotThrow, hmap, hno.1, hno.2]
  · refine hthrow w₁ τ ?_ (alters_refl he) h₁
    simp only [Bool.or_eq_false_iff] at hno
    simp [Traits.relocateCannotThrow, hno.1, hno.2]

/-- STEP: a dead slot is built from a live one. -/
theorem ends_constructFrom (he : τ (d, j) = some e) (hi : τ (c, i) = none)
    (hret : ∀ w' τ', τ' (c, i) = some e → AltersTwo (c, i) (d, j) τ τ' → Has τ' sz ls w' → Q () w')
    (hthrow : ∀ w' τ', (T.relocateCannotThrow || T.noExceptions) = false → Alters (d, j) τ τ' →
      Has τ' sz ls w' → R w') : (constructFrom T c i d j).Ends w Q R := by
  have hne : (c, i) ≠ (d, j) := by
    intro heq
    rw [heq, he] at hi
    cases hi
  refine ends_bind (ends_moveEntry h he rfl (fun w₁ τ₁ halter h₁ => ?_) hthrow)
  refine ends_construct h₁ (by rw [halter.same _ hne, hi]) fun w₂ h₂ => ?_
  refine hret w₂ _ (update_self ..) ⟨by simp, ?_, fun q hi hj => ?_⟩ h₂
  · rw [update_of_ne (Ne.symm hne)]
    exact halter.alive
  · rw [update_of_ne hi, halter.same q hj]

/-- Two slots written in turn. -/
theorem ends_writeTwo {x y : Entry K V} (hp : τ p = some a) (hq : τ q = some b) (hpq : p ≠ q)
    (hret : ∀ w' τ', τ' p = some x → τ' q = some y → (∀ r, r ≠ p → r ≠ q → τ' r = τ r) →
      Has τ' sz ls w' → Q () w') : (do
      writeAt q y
      writeAt p x : Prog (World C K V) Unit).Ends w Q R := by
  refine ends_bind (ends_write h hq fun w₁ h₁ => ?_)
  refine ends_write h₁ (a := a) (by rw [update_of_ne hpq, hp]) fun w₂ h₂ => ?_
  refine hret w₂ _ (update_self ..) ?_ (fun r hrp hrq => ?_) h₂
  · rw [update_of_ne (Ne.symm hpq), update_self]
  · rw [update_of_ne hrp, update_of_ne hrq]

/-- STEP: a live slot takes the contents of another. -/
theorem ends_assignEntry (hi : τ (c, i) = some a) (hj : τ (c, j) = some b) (hij : i ≠ j)
    (hret : ∀ w' τ', τ' (c, i) = some b → AltersTwo (c, i) (c, j) τ τ' → Has τ' sz ls w' → Q () w')
    (hthrow : ∀ w' τ', AltersTwo (c, i) (c, j) τ τ' → Has τ' sz ls w' → R w') :
    (assignEntry T c i j).Ends w Q R := by
  have hne : (c, i) ≠ (c, j) := by simp [hij]
  refine ends_bind (ends_bind (ends_call h (fun left w₁ h₁ => ?_) fun w₁ _ h₁ => ?_))
  · refine ends_bind (ends_read h₁ hj (ends_bind (ends_read h₁ hi ?_)))
    refine ends_writeTwo h₁ hi hj hne fun w₂ τ₂ hi₂ hj₂ hsame₂ h₂ => ?_
    have halters : AltersTwo (c, i) (c, j) τ τ₂ := ⟨by simp [hi₂], by simp [hj₂], hsame₂⟩
    refine ends_mapped (fun hmap => ?_) fun hset => ?_
    · refine ends_bind (ends_call h₂ (fun left w₃ h₃ => ?_) fun w₃ _ h₃ => hthrow w₃ τ₂ halters h₃)
      refine ends_bind (ends_read h₃ hj₂ (ends_bind (ends_read h₃ hi₂ ?_)))
      refine ends_writeTwo h₃ hi₂ hj₂ hne fun w₄ τ₄ hi₄ hj₄ hsame₄ h₄ => ?_
      refine hret w₄ τ₄ (by rw [hi₄]; rfl) ⟨by simp [hi₄], by simp [hj₄], fun r hri hrj => ?_⟩ h₄
      rw [hsame₄ r hri hrj, hsame₂ r hri hrj]
    · have hb : keyed T a b = b := by simp [keyed, hset]
      exact hret w₂ τ₂ (hi₂.trans (by rw [hb])) halters h₂
  · exact hthrow w₁ τ ⟨by simp [hi], by simp [hj], fun _ _ _ => rfl⟩ h₁

theorem ends_assignLocal (hi : τ (c, i) = some a)
    (hret : ∀ w', Has (update τ (c, i) (some e)) sz ls w' → Q () w')
    (hthrow : ∀ w' τ', Alters (c, i) τ τ' → Has τ' sz ls w' → R w') :
    (assignLocal T c i e).Ends w Q R := by
  refine ends_bind (ends_call h (fun _ w₁ h₁ => ?_) fun w₁ _ h₁ => hthrow w₁ τ (alters_refl hi) h₁)
  refine ends_bind (ends_read h₁ hi (ends_bind (ends_write h₁ hi fun w₂ h₂ => ?_)))
  refine ends_mapped (fun hmap => ?_) fun hset => ?_
  · refine ends_bind (ends_call h₂ (fun _ w₃ h₃ => ?_) fun w₃ _ h₃ => ?_)
    · refine ends_bind (ends_read h₃ (update_self ..) ?_)
      refine ends_write h₃ (update_self ..) fun w₄ h₄ => hret w₄ ?_
      rw [update_idem] at h₄
      exact h₄
    · exact hthrow w₃ _ (alters_update _ _ _) h₃
  · have he : keyed T a e = e := by simp [keyed, hset]
    rw [he] at h₂
    exact hret w₂ h₂

end

/-! ### Emptying -/

/-- Container `c` holds nothing. -/
def emptied (τ : Shape C K V) (c : C) : Shape C K V := fun p => if p.1 = c then none else τ p

/-- The loop of `clear`: the first `n` slots are alive. -/
theorem ends_clearLoop (h : Has τ sz ls w) (hlive : ∀ j, (τ (c, j)).isSome = true ↔ j < n)
    (hsize : n = 0 → sz c = 0) (hret : ∀ w', Has (emptied τ c) (update sz c 0) ls w' → Q () w') :
    (clearLoop c n).Ends w Q R := by
  induction n generalizing τ sz w with
  | zero =>
    refine hret w ?_
    have hsz : update sz c 0 = sz := by rw [← hsize rfl, update_eq_self]
    rw [hsz]
    refine h.congr fun p => ?_
    unfold emptied
    split
    · rename_i hp
      have hdead := hlive p.2
      simp only [Nat.not_lt_zero, iff_false, Bool.not_eq_true, Option.isSome_eq_false_iff,
        Option.isNone_iff_eq_none] at hdead
      rw [← hdead, ← hp]
    · rfl
  | succ n ih =>
    obtain ⟨e, he⟩ := Option.isSome_iff_exists.mp ((hlive n).mpr (Nat.lt_succ_self n))
    refine ends_bind (ends_setSize h fun w₁ h₁ => ?_)
    refine ends_bind (ends_destroy h₁ he fun w₂ h₂ => ?_)
    refine ih h₂ (fun j => ?_) (fun hn => by rw [hn, update_self]) fun w' h' => ?_
    · rcases eq_or_ne j n with rfl | hj
      · simp
      · rw [update_of_ne (by simp [hj]), hlive j]
        omega
    · rw [update_idem] at h'
      refine hret w' (h'.congr fun p => ?_)
      unfold emptied
      split
      · rfl
      · rename_i hp
        exact update_of_ne (fun heq => hp (by rw [heq])) ..

theorem ends_clear (h : Has τ sz ls w) (hlive : ∀ j, (τ (c, j)).isSome = true ↔ j < sz c)
    (hret : ∀ w', Has (emptied τ c) (update sz c 0) ls w' → Q () w') : (clear c).Ends w Q R :=
  ends_bind (ends_sizeOf h (ends_clearLoop h hlive id hret))

theorem ends_destroyFrom (h : Has τ sz ls w) (hlive : ∀ k, i ≤ k → k < i + n → (τ (c, k)).isSome = true)
    (hret : ∀ w' τ', (∀ k, i ≤ k → k < i + n → τ' (c, k) = none) →
      (∀ p, p.1 ≠ c ∨ p.2 < i ∨ i + n ≤ p.2 → τ' p = τ p) → Has τ' sz ls w' → Q () w') :
    (destroyFrom c i n).Ends w Q R := by
  induction n generalizing τ w i with
  | zero => exact hret w τ (fun k h₁ h₂ => by omega) (fun _ _ => rfl) h
  | succ n ih =>
    obtain ⟨e, he⟩ := Option.isSome_iff_exists.mp (hlive i (Nat.le_refl i) (by omega))
    refine ends_bind (ends_destroy h he fun w₁ h₁ => ?_)
    refine ih h₁ (fun k h₁ h₂ => ?_) fun w' τ' hdead hsame h' => ?_
    · rw [update_of_ne (by simp; omega)]
      exact hlive k (by omega) (by omega)
    · refine hret w' τ' (fun k h₁ h₂ => ?_) (fun p hp => ?_) h'
      · rcases Nat.eq_or_lt_of_le h₁ with rfl | hlt
        · rw [hsame _ (Or.inr (Or.inl (Nat.lt_succ_self _))), update_self]
        · exact hdead k hlt (by omega)
      · have hne : p ≠ (c, i) := by
          rintro rfl
          simp only [ne_eq, not_true_eq_false, Nat.lt_irrefl, false_or] at hp
          omega
        rw [hsame p (hp.imp_right fun hp => by omega), update_of_ne hne]

/-- The handlers that skip the dead slot `i`. -/
theorem ends_abandon (h : Has τ sz ls w) (hlive : ∀ j, (τ (c, j)).isSome = true ↔ j < n ∧ j ≠ i)
    (hin : i < n) (hret : ∀ w', Has (emptied τ c) (update sz c 0) ls w' → Q () w') :
    (abandon c i n).Ends w Q R := by
  refine ends_bind (ends_destroyFrom h (fun k _ hk => (hlive k).mpr (by omega)) ?_)
  intro w₁ τ₁ hdead₁ hsame₁ h₁
  refine ends_bind (ends_destroyFrom h₁ (fun k hk₁ hk₂ => ?_) ?_)
  · rw [hsame₁ (c, k) (Or.inr (Or.inr (by simp only; omega)))]
    exact (hlive k).mpr (by omega)
  · intro w₂ τ₂ hdead₂ hsame₂ h₂
    refine ends_setSize h₂ fun w₃ h₃ => hret w₃ (h₃.congr fun p => ?_)
    obtain ⟨d, k⟩ := p
    unfold emptied
    split
    · rename_i hd
      have hd : d = c := hd
      subst hd
      by_cases hki : i < k ∧ k < n
      · exact hdead₂ k (by omega) (by omega)
      · rw [hsame₂ (d, k) (Or.inr (by simp only; omega))]
        by_cases hlt : k < i
        · exact hdead₁ k (by omega) (by omega)
        · rw [hsame₁ (d, k) (Or.inr (Or.inr (by simp only; omega)))]
          have hdead := hlive k
          by_contra hsome
          have := hdead.mp (Option.isSome_iff_ne_none.mpr hsome)
          omega
    · rename_i hd
      rw [hsame₂ (d, k) (Or.inl hd), hsame₁ (d, k) (Or.inl hd)]

/-! ### The loops -/

section Loops
variable {σ : C → List (Entry K V)} {l : List (Entry K V)} {index : ℕ}

theorem shapeOf_update (l : List (Entry K V)) (h : Elsewhere σ c τ) (hc : ∀ n, τ (c, n) = l[n]?)
    (p : C × ℕ) : τ p = shapeOf (update σ c l) p := by
  obtain ⟨d, n⟩ := p
  rcases eq_or_ne d c with rfl | hd
  · simp [shapeOf, hc]
  · rw [h (d, n) hd]
    simp [shapeOf, hd]

theorem emptied_eq (h : Elsewhere σ c τ) (p : C × ℕ) : emptied τ c p = shapeOf (update σ c []) p := by
  refine shapeOf_update [] (fun q hq => ?_) (fun n => ?_) p
  · rw [emptied, if_neg hq, h q hq]
  · simp [emptied]

/-- The hole filled with an entry gives the list with the entry inserted. -/
theorem Hole.fill (h : Hole σ c l index τ) (hindex : index ≤ l.length) (e : Entry K V) (p : C × ℕ) :
    update τ (c, index) (some e) p = shapeOf (update σ c (l.insertIdx index e)) p := by
  refine shapeOf_update _ (h.elsewhere.one (alters_update τ (c, index) e)) (fun n => ?_) p
  rcases Nat.lt_trichotomy n index with hlt | rfl | hgt
  · rw [update_of_ne (by simp; omega), h.below n hlt, List.getElem?_insertIdx_of_lt hlt]
  · rw [update_self, List.getElem?_insertIdx_self, if_pos hindex]
  · rw [update_of_ne (by simp; omega), h.above n hgt, List.getElem?_insertIdx_of_gt hgt]

/-- RUN: the loop of assignments takes the hole down to `index`. -/
theorem ends_shiftLoop (h : Has τ sz ls w) (hhole : Hole σ c l i τ) (halive : (τ (c, i)).isSome = true)
    (hi : i < l.length) (hindex : index ≤ i)
    (hret : ∀ w' τ', Hole σ c l index τ' → (τ' (c, index)).isSome = true → Has τ' sz ls w' → Q () w')
    (hthrow : ∀ w' τ', Packed σ c (l.length + 1) τ' → Has τ' sz ls w' → R w') :
    (shiftLoop T c index i).Ends w Q R := by
  induction i generalizing τ w with
  | zero =>
    obtain rfl : index = 0 := by omega
    exact hret w τ hhole halive h
  | succ i ih =>
    rw [shiftLoop]
    by_cases hlt : index < i + 1
    · rw [if_pos hlt]
      obtain ⟨a, ha⟩ := Option.isSome_iff_exists.mp halive
      have hb : τ (c, i) = some l[i] := by
        rw [hhole.below i (Nat.lt_succ_self i), List.getElem?_eq_getElem]
      refine ends_bind (ends_assignEntry h ha hb (by omega) (fun w₁ τ₁ hi₁ halter h₁ => ?_) ?_)
      · refine ih h₁ ⟨fun n hn => ?_, fun n hn => ?_, hhole.elsewhere.two halter⟩
          halter.right_alive (by omega) (by omega)
        · rw [halter.same (c, n) (by simp; omega) (by simp; omega), hhole.below n (by omega)]
        · rcases Nat.eq_or_lt_of_le (Nat.succ_le_of_lt hn) with rfl | hgt
          · rw [hi₁, Nat.succ_sub_one, List.getElem?_eq_getElem]
          · rw [halter.same (c, n) (by simp; omega) (by simp; omega), hhole.above n hgt]
      · intro w₁ τ₁ halter h₁
        exact hthrow w₁ τ₁ ((hhole.packed (by omega) halive).two halter (by omega) (by omega)) h₁
    · rw [if_neg hlt]
      obtain rfl : index = i + 1 := by omega
      exact hret w τ hhole halive h

/-- RUN: the loop of constructions takes the dead slot down to `index`; if it throws, the container is
    empty. -/
theorem ends_shiftRightFrom (h : Has τ sz ls w) (hhole : Hole σ c l i τ) (hdead : τ (c, i) = none)
    (hi : i ≤ l.length) (hindex : index ≤ i)
    (hret : ∀ w' τ', Hole σ c l index τ' → τ' (c, index) = none → Has τ' sz ls w' → Q () w')
    (hthrow : ∀ w', Has (shapeOf (update σ c [])) (update sz c 0) ls w' → R w') :
    (shiftRightFrom T c index l.length i).Ends w Q R := by
  induction i generalizing τ w with
  | zero =>
    obtain rfl : index = 0 := by omega
    exact hret w τ hhole hdead h
  | succ i ih =>
    rw [shiftRightFrom]
    by_cases hlt : index < i + 1
    · rw [if_pos hlt]
      have hb : τ (c, i) = some l[i] := by
        rw [hhole.below i (Nat.lt_succ_self i), List.getElem?_eq_getElem]
      refine ends_bind (ends_onThrow (ends_constructFrom h hb hdead ?_ ?_))
      · intro w₁ τ₁ hi₁ halter h₁
        obtain ⟨e, he⟩ := Option.isSome_iff_exists.mp halter.right_alive
        refine ends_bind (ends_destroy h₁ he fun w₂ h₂ => ?_)
        refine ih h₂ ⟨fun n hn => ?_, fun n hn => ?_, fun p hp => ?_⟩ (update_self ..)
          (by omega) (by omega)
        · rw [update_of_ne (by simp; omega),
            halter.same (c, n) (by simp; omega) (by simp; omega), hhole.below n (by omega)]
        · rw [update_of_ne (by simp; omega)]
          rcases Nat.eq_or_lt_of_le (Nat.succ_le_of_lt hn) with rfl | hgt
          · rw [hi₁, Nat.succ_sub_one, List.getElem?_eq_getElem]
          · rw [halter.same (c, n) (by simp; omega) (by simp; omega), hhole.above n hgt]
        · rw [update_of_ne (fun heq => hp (by rw [heq]))]
          exact hhole.elsewhere.two halter p hp
      · intro w₁ τ₁ _ halter h₁
        refine ends_abandon h₁ (fun j => ?_) (by omega) fun w₂ h₂ => ?_
        · rcases eq_or_ne j i with rfl | hji
          · simp only [halter.alive, true_iff]
            omega
          · rw [halter.same (c, j) (by simp [hji])]
            rcases Nat.lt_trichotomy j (i + 1) with hlt | rfl | hgt
            · rw [hhole.below j hlt, alive_iff]
              omega
            · simp [hdead]
            · rw [hhole.above j hgt, alive_iff]
              omega
        · exact hthrow w₂ (h₂.congr (emptied_eq (hhole.elsewhere.one halter)))
    · rw [if_neg hlt]
      obtain rfl : index = i + 1 := by omega
      exact hret w τ hhole hdead h

/-- RUN: the gap is taken up to the end; if that throws, the container is empty. -/
theorem ends_closeGap {r : ℕ} (h : Has τ sz ls w) (hgap : Gap σ c l index i τ) (hindex : index ≤ i)
    (hr : i + 1 + r = l.length)
    (hret : ∀ w', Has (shapeOf (update σ c (l.eraseIdx index))) sz ls w' → Q () w')
    (hthrow : ∀ w', Has (shapeOf (update σ c [])) (update sz c 0) ls w' → R w') :
    (closeGap T c l.length r i).Ends w Q R := by
  induction r generalizing τ w i with
  | zero =>
    refine hret w (h.congr (shapeOf_update _ hgap.elsewhere fun n => ?_))
    have hlength : (l.eraseIdx index).length = i := by
      rw [List.length_eraseIdx_of_lt (by omega)]
      omega
    rcases Nat.lt_trichotomy n i with hlt | rfl | hgt
    · exact hgap.below n hlt
    · rw [hgap.dead, List.getElem?_eq_none (by omega)]
    · rw [hgap.above n hgt, List.getElem?_eq_none (by omega), List.getElem?_eq_none (by omega)]
  | succ r ih =>
    have hlt : i + 1 < l.length := by omega
    have hb : τ (c, i + 1) = some l[i + 1] := by
      rw [hgap.above (i + 1) (Nat.lt_succ_self i), List.getElem?_eq_getElem hlt]
    have hbuilt : ∀ w₁ τ₁, τ₁ (c, i) = some l[i + 1] → AltersTwo (c, i) (c, i + 1) τ τ₁ →
        Has τ₁ sz ls w₁ → (do
          destroyAt (c, i + 1)
          closeGap T c l.length r (i + 1) : Prog (World C K V) Unit).Ends w₁ Q R := by
      intro w₁ τ₁ hi₁ halter h₁
      obtain ⟨e, he⟩ := Option.isSome_iff_exists.mp halter.right_alive
      refine ends_bind (ends_destroy h₁ he fun w₂ h₂ => ?_)
      refine ih h₂ ⟨fun n hn => ?_, update_self .., fun n hn => ?_, fun p hp => ?_⟩ (by omega) (by omega)
      · rw [update_of_ne (by simp; omega)]
        rcases Nat.eq_or_lt_of_le (Nat.le_of_lt_succ hn) with rfl | hlt
        · rw [hi₁, List.getElem?_eraseIdx_of_ge hindex, List.getElem?_eq_getElem]
        · rw [halter.same (c, n) (by simp; omega) (by simp; omega), hgap.below n hlt]
      · rw [update_of_ne (by simp; omega),
          halter.same (c, n) (by simp; omega) (by simp; omega), hgap.above n (by omega)]
      · rw [update_of_ne (fun heq => hp (by rw [heq]))]
        exact hgap.elsewhere.two halter p hp
    rw [closeGap]
    refine ends_bind ?_
    split
    · rename_i hno
      refine ends_constructFrom h hb hgap.dead hbuilt fun w₁ τ₁ hcan => ?_
      rw [hno] at hcan
      cases hcan
    · refine ends_onThrow (ends_constructFrom h hb hgap.dead hbuilt ?_)
      intro w₁ τ₁ _ halter h₁
      refine ends_abandon h₁ (fun j => ?_) (by omega) fun w₂ h₂ => ?_
      · by_cases hji : j = i + 1
        · subst hji
          simp only [halter.alive, true_iff]
          omega
        · rw [halter.same (c, j) (by simp [hji])]
          rcases Nat.lt_trichotomy j i with hlt | rfl | hgt
          · rw [hgap.below j hlt, alive_iff, List.length_eraseIdx_of_lt (by omega)]
            omega
          · simp [hgap.dead]
          · rw [hgap.above j hgt, alive_iff]
            omega
      · exact hthrow w₂ (h₂.congr (emptied_eq (hgap.elsewhere.one halter)))

end Loops

end Metl.FlatMap
