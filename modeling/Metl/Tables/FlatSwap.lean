import Metl.Tables.FlatShifts

/-! `swap` of two flat maps, along both ways out.

        c   a₀ a₁ ·  ·          c   b₀ b₁ b₂ b₃
        d   b₀ b₁ b₂ b₃   ──▶   d   a₀ a₁ ·  ·

    The common slots are exchanged in place, the rest is moved across and then destroyed. Whenever
    something throws, each container is alive exactly below its size, so that clearing both is safe. -/

namespace Metl.FlatMap

open Metl.Schemes Metl.Schemes.Storage Metl.Schemes.Prog Function

variable {C K V : Type} {T : Traits} {σ : C → List (Entry K V)} {τ τ' : Shape C K V} {sz : C → ℕ}
  {c d : C} {a b : Entry K V} {i n : ℕ}

/-- Apart from `c` and `d`, the slots are those of `σ`. -/
def ElsewhereTwo (σ : C → List (Entry K V)) (c d : C) (τ : Shape C K V) : Prop :=
  ∀ p, p.1 ≠ c → p.1 ≠ d → τ p = (σ p.1)[p.2]?

theorem ElsewhereTwo.alters (h : ElsewhereTwo σ c d τ) (ha : AltersTwo (c, i) (d, n) τ τ') :
    ElsewhereTwo σ c d τ' := by
  intro p hc hd
  rw [ha.same p (fun heq => hc (by rw [heq])) (fun heq => hd (by rw [heq])), h p hc hd]

/-- Both containers are alive exactly below their sizes. -/
structure BothAlive (σ : C → List (Entry K V)) (c d : C) (sz : C → ℕ) (τ : Shape C K V) : Prop where
  left : ∀ j, (τ (c, j)).isSome = true ↔ j < sz c
  right : ∀ j, (τ (d, j)).isSome = true ↔ j < sz d
  elsewhere : ElsewhereTwo σ c d τ

theorem BothAlive.symm (h : BothAlive σ c d sz τ) : BothAlive σ d c sz τ :=
  ⟨h.right, h.left, fun p hd hc => h.elsewhere p hc hd⟩

/-- The first `i` slots are exchanged. -/
structure Crossed (σ : C → List (Entry K V)) (c d : C) (i : ℕ) (τ : Shape C K V) : Prop where
  left : ∀ n, τ (c, n) = if n < i then (σ d)[n]? else (σ c)[n]?
  right : ∀ n, τ (d, n) = if n < i then (σ c)[n]? else (σ d)[n]?
  elsewhere : ElsewhereTwo σ c d τ

theorem Crossed.symm (h : Crossed σ c d i τ) : Crossed σ d c i τ :=
  ⟨h.right, h.left, fun p hd hc => h.elsewhere p hc hd⟩

theorem Crossed.bothAlive (h : Crossed σ c d i τ) (hc : sz c = (σ c).length)
    (hd : sz d = (σ d).length) (hic : i ≤ (σ c).length) (hid : i ≤ (σ d).length) :
    BothAlive σ c d sz τ where
  left := fun j => by
    rw [h.left j]
    split <;> rw [alive_iff] <;> omega
  right := fun j => by
    rw [h.right j]
    split <;> rw [alive_iff] <;> omega
  elsewhere := h.elsewhere

theorem BothAlive.alters (h : BothAlive σ c d sz τ) (ha : AltersTwo (c, i) (d, n) τ τ')
    (hcd : c ≠ d) (hc : i < sz c) (hd : n < sz d) : BothAlive σ c d sz τ' where
  left := fun j => by
    rcases eq_or_ne j i with rfl | hji
    · simp [ha.left_alive, hc]
    · rw [ha.same (c, j) (by simp [hji]) (by simp [hcd]), h.left j]
  right := fun j => by
    rcases eq_or_ne j n with rfl | hjn
    · simp [ha.right_alive, hd]
    · rw [ha.same (d, j) (by simp [Ne.symm hcd]) (by simp [hjn]), h.right j]
  elsewhere := h.elsewhere.alters ha

/-- Elements moved into slots of `s` below `i`, with what is left of them still in `l`. -/
structure Moving (σ : C → List (Entry K V)) (s l : C) (i : ℕ) (τ : Shape C K V) : Prop where
  here : ∀ n, τ (s, n) = if n < i then (σ l)[n]? else none
  kept : ∀ n, n < (σ s).length → τ (l, n) = (σ s)[n]?
  source : ∀ n, i ≤ n → τ (l, n) = (σ l)[n]?
  alive : ∀ n, (τ (l, n)).isSome = true ↔ n < (σ l).length
  elsewhere : ElsewhereTwo σ s l τ

theorem Moving.bothAlive (h : Moving σ c d i τ) (hc : sz c = i) (hd : sz d = (σ d).length)
    (hi : i ≤ (σ d).length) : BothAlive σ c d sz τ where
  left := fun j => by
    rw [h.here j]
    split
    · rw [alive_iff]
      omega
    · simp only [Option.isSome_none, Bool.false_eq_true, false_iff]
      omega
  right := fun j => by rw [h.alive j, hd]
  elsewhere := h.elsewhere

/-- STEP: the next element is moved across. -/
theorem Moving.next (h : Moving σ c d i τ) (hcd : c ≠ d) (hc : (σ c).length ≤ i)
    (hi : i < (σ d).length) (hbuilt : τ' (c, i) = some (σ d)[i])
    (halter : AltersTwo (c, i) (d, i) τ τ') : Moving σ c d (i + 1) τ' := by
  have hsame : ∀ n, n ≠ i → τ' (d, n) = τ (d, n) := fun n hn =>
    halter.same (d, n) (by simp [Ne.symm hcd]) (by simp [hn])
  refine ⟨fun n => ?_, fun n hn => ?_, fun n hn => ?_, fun n => ?_, h.elsewhere.alters halter⟩
  · rcases Nat.lt_trichotomy n i with hlt | rfl | hgt
    · rw [halter.same (c, n) (by simp; omega) (by simp [hcd]), h.here, if_pos hlt, if_pos (by omega)]
    · rw [hbuilt, if_pos (Nat.lt_succ_self n), List.getElem?_eq_getElem hi]
    · rw [halter.same (c, n) (by simp; omega) (by simp [hcd]), h.here, if_neg (by omega),
        if_neg (by omega)]
  · rw [hsame n (by omega), h.kept n hn]
  · rw [hsame n (by omega), h.source n (by omega)]
  · rcases eq_or_ne n i with rfl | hn
    · simp [halter.right_alive, hi]
    · rw [hsame n hn, h.alive n]

/-- The next element to be moved, and the dead slot for it. -/
theorem Moving.ends (h : Moving σ c d i τ) (hi : i < (σ d).length) :
    τ (d, i) = some (σ d)[i] ∧ τ (c, i) = none :=
  ⟨by rw [h.source i (Nat.le_refl i), List.getElem?_eq_getElem hi],
    by rw [h.here, if_neg (Nat.lt_irrefl i)]⟩

/-- All common slots exchanged: the rest is to be moved. -/
theorem Crossed.moving (h : Crossed σ c d (σ c).length τ) (hlen : (σ c).length ≤ (σ d).length) :
    Moving σ c d (σ c).length τ where
  here := fun n => by
    rw [h.left n]
    split
    · rfl
    · exact List.getElem?_eq_none (by omega)
  kept := fun n hn => by rw [h.right n, if_pos hn]
  source := fun n hn => by rw [h.right n, if_neg (by omega)]
  alive := fun n => by
    rw [h.right n]
    split <;> rw [alive_iff]
    omega
  elsewhere := h.elsewhere

variable [DecidableEq C] {ls : C → K → K → Bool} {w : World C K V} {R : World C K V → Prop}
  {Q : Unit → World C K V → Prop}

/-- The lists of two containers exchanged. -/
def exchanged {α : Type} (f : C → α) (c d : C) : C → α :=
  update (update f c (f d)) d (f c)

theorem exchanged_comm {α : Type} (f : C → α) (hcd : c ≠ d) : exchanged f d c = exchanged f c d :=
  update_comm (Ne.symm hcd) _ _ f

theorem shapeOf_exchanged (hcd : c ≠ d) (h : ElsewhereTwo σ c d τ) (hc : ∀ n, τ (c, n) = (σ d)[n]?)
    (hd : ∀ n, τ (d, n) = (σ c)[n]?) (p : C × ℕ) : τ p = shapeOf (exchanged σ c d) p := by
  obtain ⟨x, n⟩ := p
  unfold shapeOf exchanged
  rcases eq_or_ne x d with rfl | hxd
  · simp [hd]
  · rcases eq_or_ne x c with rfl | hxc
    · simp [hc, hxd]
    · simp [h (x, n) hxc hxd, hxd, hxc]

/-! ### The common slots -/

/-- STEP: a part of two entries is exchanged. -/
theorem ends_swapPart {nothrow : Bool} {leave : Left K V → Entry K V → Entry K V}
    {take : Entry K V → Entry K V → Entry K V} (h : Has τ sz ls w) (hcd : c ≠ d)
    (hc : τ (c, n) = some a) (hd : τ (d, n) = some b)
    (hret : ∀ w' τ', τ' (c, n) = some (take a b) → τ' (d, n) = some (take b a) →
      (∀ r, r ≠ (c, n) → r ≠ (d, n) → τ' r = τ r) → Has τ' sz ls w' → Q () w')
    (hthrow : ∀ w' τ', (nothrow || T.noExceptions) = false → AltersTwo (c, n) (d, n) τ τ' →
      Has τ' sz ls w' → R w') :
    (swapPart T nothrow leave take c d n).Ends w Q R := by
  have hne : (c, n) ≠ (d, n) := by simp [hcd]
  have hnone : AltersTwo (c, n) (d, n) τ τ := ⟨by simp [hc], by simp [hd], fun _ _ _ => rfl⟩
  refine ends_bind (ends_call h (fun left₁ w₁ h₁ => ?_) fun w₁ hno h₁ => hthrow w₁ τ hno hnone h₁)
  refine ends_bind (ends_read h₁ hc (ends_bind (ends_write h₁ hc fun w₂ h₂ => ?_)))
  have hd₂ : update τ (c, n) (some (leave left₁ a)) (d, n) = some b := by
    rw [update_of_ne (Ne.symm hne), hd]
  refine ends_bind (ends_call h₂ (fun left w₃ h₃ => ?_) fun w₃ hno h₃ => hthrow w₃ _ hno ?_ h₃)
  · refine ends_bind (ends_read h₃ hd₂ (ends_bind (ends_write h₃ hd₂ fun w₄ h₄ => ?_)))
    refine ends_bind (ends_write h₄ (a := leave left₁ a) ?_ fun w₅ h₅ => ?_)
    · rw [update_of_ne hne, update_self]
    have hd₅ : update (update (update τ (c, n) (some (leave left₁ a)))
        (d, n) (some (leave left b))) (c, n) (some (take a b)) (d, n) = some (leave left b) := by
      rw [update_of_ne (Ne.symm hne), update_self]
    refine ends_bind (ends_call h₅ (fun _ w₆ h₆ => ?_) fun w₆ hno h₆ => hthrow w₆ _ hno ?_ h₆)
    · refine ends_write h₆ hd₅ fun w₇ h₇ => ?_
      refine hret w₇ _ ?_ (update_self ..) (fun r hrc hrd => ?_) h₇
      · rw [update_of_ne hne, update_self]
      · rw [update_of_ne hrd, update_of_ne hrc, update_of_ne hrd, update_of_ne hrc]
    · refine ⟨by simp, by simp [hd₅], fun r hrc hrd => ?_⟩
      rw [update_of_ne hrc, update_of_ne hrd, update_of_ne hrc]
  · exact ⟨by simp, by simp [hd₂], fun r hrc _ => update_of_ne hrc ..⟩

theorem swapCannotThrow_false {x : Bool} (hno : (x || T.noExceptions) = false)
    (hx : x = false → T.swapCannotThrow = false) : (T.swapCannotThrow || T.noExceptions) = false := by
  rw [Bool.or_eq_false_iff] at hno ⊢
  exact ⟨hx hno.1, hno.2⟩

section

variable (h : Has τ sz ls w)
include h

/-- RUN: the common slots from `i` on. -/
theorem ends_swapCommon {r : ℕ} (hcd : c ≠ d) (hcross : Crossed σ c d i τ) (hszc : sz c = (σ c).length)
    (hszd : sz d = (σ d).length) (hrc : i + r ≤ (σ c).length) (hrd : i + r ≤ (σ d).length)
    (hret : ∀ w' τ', Crossed σ c d (i + r) τ' → Has τ' sz ls w' → Q () w')
    (hthrow : ∀ w' τ', (T.swapCannotThrow || T.noExceptions) = false → BothAlive σ c d sz τ' →
      Has τ' sz ls w' → R w') : (swapCommon T c d r i).Ends w Q R := by
  induction r generalizing τ w i with
  | zero => exact hret w τ hcross h
  | succ r ih =>
    have hic : i < (σ c).length := by omega
    have hid : i < (σ d).length := by omega
    have hc : τ (c, i) = some (σ c)[i] := by
      rw [hcross.left, if_neg (Nat.lt_irrefl i), List.getElem?_eq_getElem hic]
    have hd : τ (d, i) = some (σ d)[i] := by
      rw [hcross.right, if_neg (Nat.lt_irrefl i), List.getElem?_eq_getElem hid]
    have halive := hcross.bothAlive hszc hszd (by omega) (by omega)
    -- after both parts the entries are exchanged as wholes
    have hnext : ∀ w₁ τ₁, τ₁ (c, i) = some (σ d)[i] → τ₁ (d, i) = some (σ c)[i] →
        (∀ r, r ≠ (c, i) → r ≠ (d, i) → τ₁ r = τ r) → Has τ₁ sz ls w₁ →
        (swapCommon T c d r (i + 1)).Ends w₁ Q R := by
      intro w₁ τ₁ hc₁ hd₁ hsame h₁
      refine ih h₁ ⟨fun n => ?_, fun n => ?_, fun p hpc hpd => ?_⟩ (by omega) (by omega)
        fun w' τ' hcross' h' => ?_
      · rcases Nat.lt_trichotomy n i with hlt | rfl | hgt
        · rw [hsame (c, n) (by simp; omega) (by simp [hcd]), hcross.left, if_pos hlt, if_pos (by omega)]
        · rw [hc₁, if_pos (Nat.lt_succ_self n), List.getElem?_eq_getElem hid]
        · rw [hsame (c, n) (by simp; omega) (by simp [hcd]), hcross.left, if_neg (by omega),
            if_neg (by omega)]
      · rcases Nat.lt_trichotomy n i with hlt | rfl | hgt
        · rw [hsame (d, n) (by simp [Ne.symm hcd]) (by simp; omega), hcross.right, if_pos hlt,
            if_pos (by omega)]
        · rw [hd₁, if_pos (Nat.lt_succ_self n), List.getElem?_eq_getElem hic]
        · rw [hsame (d, n) (by simp [Ne.symm hcd]) (by simp; omega), hcross.right,
            if_neg (by omega), if_neg (by omega)]
      · rw [hsame p (fun heq => hpc (by rw [heq])) fun heq => hpd (by rw [heq])]
        exact hcross.elsewhere p hpc hpd
      · rw [Nat.add_right_comm] at hcross'
        exact hret w' τ' hcross' h'
    refine ends_bind (ends_swapPart h hcd hc hd (fun w₁ τ₁ hc₁ hd₁ hsame₁ h₁ => ?_) ?_)
    · refine ends_bind (ends_mapped (fun hmap => ?_) fun hset => ?_)
      · refine ends_swapPart h₁ hcd hc₁ hd₁ (fun w₂ τ₂ hc₂ hd₂ hsame₂ h₂ => ?_) ?_
        · simp only [keyed, hmap, if_true] at hc₂ hd₂
          refine hnext w₂ τ₂ hc₂ hd₂ (fun r hrc hrd => ?_) h₂
          rw [hsame₂ r hrc hrd, hsame₁ r hrc hrd]
        · intro w₂ τ₂ hno halter h₂
          have halters : AltersTwo (c, i) (d, i) τ τ₂ :=
            ⟨halter.left_alive, halter.right_alive, fun r hrc hrd =>
              (halter.same r hrc hrd).trans (hsame₁ r hrc hrd)⟩
          refine hthrow w₂ τ₂ (swapCannotThrow_false hno fun hx => ?_)
            (halive.alters halters hcd (by omega) (by omega)) h₂
          simp [Traits.swapCannotThrow, hx, hmap]
      · have hkeyed : ∀ x y : Entry K V, keyed T x y = y := by simp [keyed, hset]
        rw [hkeyed] at hc₁ hd₁
        exact hnext w₁ τ₁ hc₁ hd₁ hsame₁ h₁
    · intro w₁ τ₁ hno halter h₁
      refine hthrow w₁ τ₁ (swapCannotThrow_false hno fun hx => ?_)
        (halive.alters halter hcd (by omega) (by omega)) h₁
      simp [Traits.swapCannotThrow, hx]

/-! ### The rest of the longer one -/

/-- RUN: `r` elements of `l` are moved onto the end of `s`. -/
theorem ends_moveTail {s l : C} {r : ℕ} (hsl : s ≠ l) (hmove : Moving σ s l i τ) (hi : (σ s).length ≤ i)
    (hr : i + r = (σ l).length) (hszs : sz s = i) (hszl : sz l = (σ l).length)
    (hret : ∀ w' τ', Moving σ s l (σ l).length τ' → Has τ' (update sz s (σ l).length) ls w' → Q () w')
    (hthrow : ∀ w' τ' n, (T.swapCannotThrow || T.noExceptions) = false →
      BothAlive σ s l (update sz s n) τ' → Has τ' (update sz s n) ls w' → R w') :
    (moveTail T s l r i).Ends w Q R := by
  induction r generalizing τ sz w i with
  | zero =>
    obtain rfl : i = (σ l).length := by omega
    refine hret w τ hmove ?_
    rw [← hszs, update_eq_self]
    exact h
  | succ r ih =>
    have hlt : i < (σ l).length := by omega
    obtain ⟨hsource, hdead⟩ := hmove.ends hlt
    refine ends_bind (ends_constructFrom h hsource hdead (fun w₁ τ₁ hbuilt halter h₁ => ?_) ?_)
    · refine ends_bind (ends_setSize h₁ fun w₂ h₂ => ?_)
      refine ih h₂ (hmove.next hsl hi hlt hbuilt halter) (by omega) (by omega)
        (update_self ..) (by rw [update_of_ne (Ne.symm hsl), hszl])
        (fun w' τ' hmove' h' => ?_) fun w' τ' n hno halive h' => ?_
      · rw [update_idem] at h'
        exact hret w' τ' hmove' h'
      · rw [update_idem] at h' halive
        exact hthrow w' τ' n hno halive h'
    · intro w₁ τ₁ hno halter h₁
      have hmove₁ : BothAlive σ s l sz τ₁ := by
        have halive := hmove.bothAlive hszs hszl (by omega)
        refine ⟨fun j => ?_, fun j => ?_, fun p hps hpl => ?_⟩
        · rw [halter.same (s, j) (by simp [hsl]), halive.left j]
        · rcases eq_or_ne j i with rfl | hj
          · simp [halter.alive, hszl, hlt]
          · rw [halter.same (l, j) (by simp [hj]), halive.right j]
        · rw [halter.same p fun heq => hpl (by rw [heq])]
          exact hmove.elsewhere p hps hpl
      refine hthrow w₁ τ₁ (sz s) (swapCannotThrow_false hno fun hx => ?_) ?_ ?_
      · simp [Traits.swapCannotThrow, hx]
      · rw [update_eq_self]
        exact hmove₁
      · rw [update_eq_self]
        exact h₁

/-- RUN: the `r` elements of `l` above slot `n` are destroyed. -/
theorem ends_dropTail {l : C} {r : ℕ} (halive : ∀ j, (τ (l, j)).isSome = true ↔ j < n + r)
    (hsz : sz l = n + r) (hret : ∀ w' τ', (∀ j, τ' (l, j) = if j < n then τ (l, j) else none) →
      (∀ p, p.1 ≠ l → τ' p = τ p) → Has τ' (update sz l n) ls w' → Q () w') :
    (dropTail l n r).Ends w Q R := by
  induction r generalizing τ sz w with
  | zero =>
    refine hret w τ (fun j => ?_) (fun _ _ => rfl) ?_
    · split
      · rfl
      · rename_i hj
        rw [← Option.not_isSome_iff_eq_none, halive j]
        omega
    · have hsz' : n = sz l := by omega
      rw [hsz', update_eq_self]
      exact h
  | succ r ih =>
    obtain ⟨e, he⟩ := Option.isSome_iff_exists.mp ((halive (n + r)).mpr (by omega))
    refine ends_bind (ends_setSize h fun w₁ h₁ => ?_)
    refine ends_bind (ends_destroy h₁ he fun w₂ h₂ => ?_)
    refine ih h₂ (fun j => ?_) (update_self ..) fun w' τ' hbelow hsame h' => ?_
    · by_cases hj : j = n + r
      · subst hj
        simp
      · rw [update_of_ne (by simp [hj]), halive j]
        omega
    · rw [update_idem] at h'
      refine hret w' τ' (fun j => ?_) (fun p hp => ?_) h'
      · rw [hbelow j]
        split
        · exact update_of_ne (by simp; omega) ..
        · rfl
      · rw [hsame p hp]
        exact update_of_ne (fun heq => hp (by rw [heq])) ..

/-- The rest of the longer one moved across and destroyed: the lists are exchanged. -/
theorem ends_moveRest {s l : C} (hsl : s ≠ l) (hcross : Crossed σ s l (σ s).length τ)
    (hlen : (σ s).length ≤ (σ l).length) (hszs : sz s = (σ s).length) (hszl : sz l = (σ l).length)
    (hret : ∀ w', Has (shapeOf (exchanged σ s l)) (exchanged sz s l) ls w' → Q () w')
    (hthrow : ∀ w' τ' n, (T.swapCannotThrow || T.noExceptions) = false →
      BothAlive σ s l (update sz s n) τ' → Has τ' (update sz s n) ls w' → R w') : (do
      moveTail T s l ((σ l).length - (σ s).length) (σ s).length
      dropTail l (σ s).length ((σ l).length - (σ s).length) : Prog (World C K V) Unit).Ends w Q R := by
  refine ends_bind (ends_moveTail h hsl (hcross.moving hlen) (Nat.le_refl _) (by omega) hszs hszl
    (fun w₁ τ₁ hmove h₁ => ?_) hthrow)
  refine ends_dropTail h₁ (fun j => ?_) ?_ fun w₂ τ₂ hbelow hsame h₂ => ?_
  · rw [hmove.alive j]
    omega
  · rw [update_of_ne (Ne.symm hsl), hszl]
    omega
  · refine hret w₂ ?_
    rw [← hszs, ← hszl] at h₂
    refine h₂.congr (shapeOf_exchanged hsl (fun p hps hpl => ?_) (fun n => ?_) fun n => ?_)
    · rw [hsame p hpl, hmove.elsewhere p hps hpl]
    · rw [hsame (s, n) hsl, hmove.here n]
      split
      · rfl
      · rw [List.getElem?_eq_none (by omega)]
    · rw [hbelow n]
      split
      · rename_i hn
        rw [hmove.kept n hn]
      · rw [List.getElem?_eq_none (by omega)]

/-! ### The whole -/

theorem ends_swapCompare (hret : ∀ w', Has τ sz (exchanged ls c d) w' → Q () w')
    (hthrow : ∀ w', (T.swapCannotThrow || T.noExceptions) = false → Has τ sz ls w' → R w') :
    (swapCompare T c d).Ends w Q R := by
  refine ends_bind (ends_call h (fun _ w₁ h₁ => ?_) fun w₁ hno h₁ => hthrow w₁ ?_ h₁)
  · obtain ⟨script, h₁⟩ := h₁
    exact ends_modifyRegs h₁ fun w₂ h₂ => hret w₂ ⟨script, h₂⟩
  · exact swapCannotThrow_false hno fun hx => by simp [Traits.swapCannotThrow, hx]

end

/-- The contents are exchanged, or both containers may be cleared. -/
theorem ends_swapContents (h : Has (shapeOf σ) sz ls w) (hcd : c ≠ d) (hsz : ∀ x, sz x = (σ x).length)
    (hret : ∀ w', Has (shapeOf (exchanged σ c d)) (exchanged sz c d) (exchanged ls c d) w' → Q () w')
    (hthrow : ∀ w' τ' sz' ls', (T.swapCannotThrow || T.noExceptions) = false →
      BothAlive σ c d sz' τ' → (∀ x, x ≠ c → x ≠ d → sz' x = sz x) →
      (ls' = ls ∨ ls' = exchanged ls c d) → Has τ' sz' ls' w' → R w') :
    (swapContents T c d).Ends w Q R := by
  have hstart : Crossed σ c d 0 (shapeOf σ) := ⟨fun n => rfl, fun n => rfl, fun p _ _ => rfl⟩
  refine ends_bind (ends_swapCompare h (fun w₁ h₁ => ?_) fun w₁ hno h₁ => ?_)
  · refine ends_bind (ends_sizeOf h₁ (ends_bind (ends_sizeOf h₁ ?_)))
    refine ends_bind (ends_swapCommon h₁ hcd hstart (hsz c) (hsz d) (by rw [hsz c]; omega)
      (by rw [hsz d]; omega) (fun w₂ τ₂ hcross h₂ => ?_) fun w₂ τ₂ hno halive h₂ => ?_)
    · rw [Nat.zero_add] at hcross
      rw [hsz c, hsz d] at hcross ⊢
      by_cases hmn : (σ c).length < (σ d).length
      · rw [if_pos hmn]
        rw [Nat.min_eq_left (by omega)] at hcross
        refine ends_moveRest h₂ hcd hcross (by omega) (hsz c) (hsz d) hret ?_
        intro w' τ' n hno halive h'
        exact hthrow w' τ' _ _ hno halive (fun x hxc _ => update_of_ne hxc ..) (Or.inr rfl) h'
      · rw [if_neg hmn]
        rw [Nat.min_eq_right (by omega)] at hcross
        by_cases hnm : (σ d).length < (σ c).length
        · rw [if_pos hnm]
          refine ends_moveRest h₂ (Ne.symm hcd) hcross.symm (by omega) (hsz d) (hsz c)
            (fun w' h' => ?_) fun w' τ' n hno halive h' => ?_
          · rw [exchanged_comm σ hcd, exchanged_comm sz hcd] at h'
            exact hret w' h'
          · exact hthrow w' τ' _ _ hno halive.symm (fun x _ hxd => update_of_ne hxd ..) (Or.inr rfl) h'
        · rw [if_neg hnm]
          have hlen : (σ c).length = (σ d).length := by omega
          refine hret w₂ ?_
          have hsize : exchanged sz c d = sz := by
            have hcd' : sz c = sz d := by rw [hsz c, hsz d, hlen]
            rw [exchanged, ← hcd', update_eq_self, hcd', update_eq_self]
          rw [hsize]
          refine h₂.congr (shapeOf_exchanged hcd hcross.elsewhere (fun n => ?_) fun n => ?_)
          · rw [hcross.left n]
            split
            · rfl
            · rw [List.getElem?_eq_none (by omega), List.getElem?_eq_none (by omega)]
          · rw [hcross.right n]
            split
            · rfl
            · rw [List.getElem?_eq_none (by omega), List.getElem?_eq_none (by omega)]
    · exact hthrow w₂ τ₂ sz _ hno halive (fun _ _ _ => rfl) (Or.inr rfl) h₂
  · refine hthrow w₁ _ sz ls hno ?_ (fun _ _ _ => rfl) (Or.inl rfl) h₁
    exact hstart.bothAlive (hsz c) (hsz d) (Nat.zero_le _) (Nat.zero_le _)

/-- STEP: `swap` exchanges, or throws with both containers empty. -/
theorem ends_swap (h : Has (shapeOf σ) sz ls w) (hsz : ∀ x, sz x = (σ x).length)
    (hsame : c = d → Has (shapeOf σ) sz ls w → Q () w) (hret : ∀ w', c ≠ d →
      Has (shapeOf (exchanged σ c d)) (exchanged sz c d) (exchanged ls c d) w' → Q () w')
    (hthrow : ∀ w' ls', (ls' = ls ∨ ls' = exchanged ls c d) → Has (shapeOf (update (update σ c []) d []))
        (update (update sz c 0) d 0) ls' w' → R w') : (swap T c d).Ends w Q R := by
  unfold swap
  by_cases hcd : c = d
  · rw [if_pos hcd]
    exact hsame hcd h
  · rw [if_neg hcd]
    split
    · rename_i hno
      refine ends_swapContents h hcd hsz (fun w' => hret w' hcd) fun w' τ' sz' ls' hcan => ?_
      rw [hno] at hcan
      cases hcan
    · refine ends_onThrow (ends_swapContents h hcd hsz (fun w' => hret w' hcd) ?_)
      intro w₁ τ₁ sz₁ ls₁ _ halive hsz₁ hls h₁
      refine ends_bind (ends_clear h₁ halive.left fun w₂ h₂ => ?_)
      refine ends_clear h₂ (fun j => ?_) fun w₃ h₃ => hthrow w₃ ls₁ hls ?_
      · rw [update_of_ne (Ne.symm hcd), emptied, if_neg (Ne.symm hcd), halive.right j]
      · have hsize : update (update sz₁ c 0) d 0 = update (update sz c 0) d 0 := by
          funext x
          by_cases hxd : x = d
          · simp [hxd]
          · rcases eq_or_ne x c with rfl | hxc
            · simp [hxd]
            · simp [hxd, hxc, hsz₁ x hxc hxd]
        rw [hsize] at h₃
        refine h₃.congr fun p => ?_
        obtain ⟨x, n⟩ := p
        by_cases hxd : x = d
        · simp [emptied, shapeOf, hxd]
        · rcases eq_or_ne x c with rfl | hxc
          · simp [emptied, shapeOf, hxd]
          · simp [emptied, shapeOf, hxd, hxc, halive.elsewhere (x, n) hxc hxd]

end Metl.FlatMap
