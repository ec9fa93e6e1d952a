import Metl.Vocab.ExpectedSlots

/-! What the operations of `expected` do to the contents, and what an exception leaves.

    The abstract side is a map from expecteds to contents. An operation that returns has computed the
    new contents from those before the call. An operation that throws has kept every alternative,
    unless two moves threw in it: the one that puts the new member in place, and the one that moves the
    old member back.

        build ── set aside ── destroy ── move in ──▶ named
          │          │                      └─✗─ move back ──▶ kept
          ▼ kept     ▼ kept                          └─✗─────▶ lost: switching, nothing alive -/

namespace Metl.Expected

open Metl.Schemes Metl.Schemes.Prog Function

variable {I V W : Type}

/-- Every expected holds the alternative it held. -/
def SameKinds (σ σ' : Abs I V W) : Prop := ∀ i, (σ' i).map Member.kind = (σ i).map Member.kind

theorem SameKinds.refl (σ : Abs I V W) : SameKinds σ σ := fun _ => rfl

theorem SameKinds.trans {σ σ' σ'' : Abs I V W} (h : SameKinds σ σ') (h' : SameKinds σ' σ'') :
    SameKinds σ σ'' := fun i => (h' i).trans (h i)

theorem SameKinds.held {σ σ' : Abs I V W} {i : I} {m : Member V W} (h : SameKinds σ σ')
    (hi : σ i = some m) : ∃ m', σ' i = some m' ∧ m'.kind = m.kind := by
  have hkind := h i
  rw [hi, Option.map_some] at hkind
  exact Option.map_eq_some_iff.mp hkind

section Exits
variable {T : Types V W} {σ σ' : Abs I V W} {script : List (Option (Damage V W))}
  {w w' : World I V W} {i j : I} {m m' : Member V W} {k old new : Kind} {nothrow : Bool}

/-- The alternatives are those of `σ`, each named by its discriminant. -/
def Kept (σ : Abs I V W) (w : World I V W) : Prop := ∃ σ', SameKinds σ σ' ∧ At (settled σ') w

/-- An expected is left switching, with no member. -/
def Lost (w : World I V W) : Prop := ∃ i s, w.slot i = some s ∧ s.state = .switching

theorem Kept.not_lost (h : Kept σ w) : ¬ Lost w := by
  rintro ⟨i, s, hslot, hs⟩
  obtain ⟨σ', -, hat⟩ := h
  have hi := congrFun hat.shape_eq i
  rw [shape, hslot, settled, Option.map_some] at hi
  obtain ⟨m, -, hm⟩ := Option.map_eq_some_iff.mp hi.symm
  have hstate : m.kind.state = s.state := congrArg Prod.fst hm
  rw [hs] at hstate
  cases hkind : m.kind <;> simp [hkind, Kind.state] at hstate

/-- The calls of `exchange`: setting aside returns, moving in throws, and so does moving back. -/
def Rollback (T : Types V W) (old new : Kind) (script : List (Option (Damage V W))) : Prop :=
  ¬ Throws T (T.nothrowMove old) script ∧
    Throws T (T.nothrowMove new) (rest T (T.nothrowMove old) script) ∧ Throws T (T.nothrowMove old)
      (rest T (T.nothrowMove new) (rest T (T.nothrowMove old) script))

/-- How an operation may end by an exception: nothing is lost unless `rollback`. -/
def Exits (σ : Abs I V W) (rollback : Prop) (script : List (Option (Damage V W)))
    (w' : World I V W) : Prop :=
  script ≠ [] ∧ ((¬ rollback ∧ Kept σ w') ∨ (rollback ∧ Lost w'))

/-- The arguments refer to an object that is alive, and give a `k`. -/
def Ref.Bound (σ : Abs I V W) (w : World I V W) (k : Kind) : Ref I V W → Prop
  | .const m => m.kind = k
  | .object j id f => idAt w j = some id ∧ (∀ m, (f m).2.kind = m.kind) ∧
    ∃ m, σ j = some m ∧ (f m).1.kind = k

theorem Ref.Bound.congr {args : Ref I V W} (hb : args.Bound σ w k) (h : idAt w' = idAt w) :
    args.Bound σ w' k := by
  cases args with
  | const m => exact hb
  | object j id f => exact ⟨by rw [h]; exact hb.1, hb.2⟩

end Exits

variable [DecidableEq I] {T : Types V W} {τ : Shape I V W} {σ σ' : Abs I V W}
  {script : List (Option (Damage V W))} {w w' : World I V W} {i j : I} {m m' : Member V W}
  {k old new : Kind} {nothrow : Bool} {Q : Unit → World I V W → Prop} {R : World I V W → Prop}

theorem SameKinds.update (h : SameKinds σ σ') (hi : σ' i = some m) (hk : m'.kind = m.kind) :
    SameKinds σ (update σ' i (some m')) := by
  intro j
  rw [← h j]
  rcases eq_or_ne j i with rfl | hji
  · simp [hi, hk]
  · simp [hji]

theorem damaged_settled (σ : Abs I V W) (d : Damage V W) (touched : List I) :
    ∃ σ', damaged d touched (settled σ) = settled σ' ∧ SameKinds σ σ' := by
  induction touched generalizing σ with
  | nil => exact ⟨σ, rfl, SameKinds.refl σ⟩
  | cons i touched ih =>
    obtain ⟨σ', hσ', hkinds⟩ := ih (update σ i ((σ i).map d.apply))
    refine ⟨σ', ?_, SameKinds.trans ?_ hkinds⟩
    · rw [← hσ', damaged, List.foldl_cons, alterShape_settled d.apply_kind, damaged]
    · intro j
      rcases eq_or_ne j i with rfl | hji
      · simp [comp_def]
      · simp [hji]

/-! ### Arguments -/

/-- The contents the arguments give, with what is left behind. -/
def Ref.result (σ : Abs I V W) : Ref I V W → Option (Member V W) × Abs I V W
  | .const m => (some m, σ)
  | .object j _ f =>
    match σ j with
    | none => (none, σ)
    | some m => (some (f m).1, update σ j (some (f m).2))

variable {args : Ref I V W} {n : Member V W}

theorem ends_read {Q : Member V W → World I V W → Prop} (h : Is (settled σ) script w)
    (hb : args.Bound σ w k)
    (hret : ∀ w' m σ', args.result σ = (some m, σ') → m.kind = k → SameKinds σ σ' →
      Is (settled σ') script w' → Q m w') : args.read.Ends w Q R := by
  cases args with
  | const m => exact hret w m σ rfl hb (SameKinds.refl σ) h
  | object j id f =>
    obtain ⟨hid, hf, m, hm, hk⟩ := hb
    have hfocus := h.toAt
    rw [settled_focus hm] at hfocus
    obtain ⟨id', hslot, hid'⟩ := hfocus.slot_some
    rw [hid, Option.some.injEq] at hid'
    have halter := h.toAt.alter j fun m => (f m).2
    rw [alterShape_settled hf, hm, Option.map_some] at halter
    unfold Ends EndsOr Ref.read
    simp only [hslot, hid', if_true]
    exact hret _ _ _ (by simp only [Ref.result, hm]) hk
      ((SameKinds.refl σ).update hm (hf m)) ⟨halter, h.script_eq⟩

theorem ends_build {Q : Member V W → World I V W → Prop} (h : Is (settled σ) script w)
    (hb : args.Bound σ w k)
    (hret : ∀ w' m σ', args.result σ = (some m, σ') → m.kind = k → SameKinds σ σ' →
      ¬ Throws T nothrow script → Is (settled σ') (rest T nothrow script) w' → Q m w')
    (hthrow : ∀ w', Throws T nothrow script → Kept σ w' → R w') : (build T nothrow args).Ends w Q R := by
  refine ends_bind (ends_userCall h ?_ ?_)
  · intro w₁ hno h₁ hids
    refine ends_read h₁ (hb.congr hids) fun w₂ m σ' hresult hk hkinds h₂ => ?_
    exact hret w₂ m σ' hresult hk hkinds hno h₂
  · intro w₁ d hthrows h₁
    obtain ⟨σ', hσ', hkinds⟩ := damaged_settled σ d args.touched
    exact hthrow w₁ hthrows ⟨σ', hkinds, hσ' ▸ h₁.toAt⟩

theorem ends_assign (h : Is (settled σ) script w) (hb : args.Bound σ w k) (hi : σ i = some m)
    (hk : m.kind = k)
    (hret : ∀ w' σ' m', args.result σ = (some m', σ') → At (settled (update σ' i (some m'))) w' →
      Q () w') (hthrow : ∀ w', Throws T false script → Kept σ w' → R w') :
    (assign T i args).Ends w Q R := by
  refine ends_bind (ends_userCall h ?_ ?_)
  · intro w₁ hno h₁ hids
    refine ends_bind (ends_read h₁ (hb.congr hids) fun w₂ m' σ' hresult hk' hkinds h₂ => ?_)
    obtain ⟨m₁, hm₁, hkind⟩ := hkinds.held hi
    refine hret _ σ' m' hresult ?_
    have halter := h₂.toAt.alter i fun _ => m'
    rw [settled_focus hm₁, alterShape_update] at halter
    rwa [settled_update, hk', ← hk, ← hkind]
  · intro w₁ d hthrows h₁
    obtain ⟨σ', hσ', hkinds⟩ := damaged_settled σ d (i :: args.touched)
    exact hthrow w₁ hthrows ⟨σ', hkinds, hσ' ▸ h₁.toAt⟩

/-! ### Replacing the member -/

theorem lost_of_at (h : At (update τ i (some (.switching, none))) w) : Lost w :=
  ⟨i, _, h.slot_dead.1, rfl⟩

/-- STEP: along every way out of `exchange` the new member or the old one is alive, except that the
    two throws of `Rollback` leave none. -/
theorem ends_exchange (h : Is (settled σ) script w) (hi : σ i = some m) (hold : m.kind = old)
    (hnew : m'.kind = new)
    (hret : ∀ w' script', Is (update (settled σ) i (some (.switching, some m'))) script' w' → Q () w')
    (hthrow : ∀ w', Exits σ (Rollback T old new script) script w' → R w') :
    (exchange T i old new m').Ends w Q R := by
  rw [settled_focus hi] at h
  unfold exchange
  split
  · rename_i hmove
    refine ends_bind (ends_setState h fun w₁ h₁ => ?_)
    refine ends_bind (ends_destroyMember h₁ hold fun w₂ h₂ => ?_)
    refine ends_moveInto h₂ (fun w₃ _ h₃ => hret w₃ _ h₃) fun w₃ hthrows => ?_
    rw [hnew] at hthrows
    exact absurd hthrows (not_throws_of_nothrow hmove)
  · refine ends_bind (ends_moveOut h hold (fun w₁ hno₁ h₁ => ?_) fun w₁ m₁ hthrows hk h₁ => ?_)
    · refine ends_bind (ends_setState h₁ fun w₂ h₂ => ?_)
      refine ends_bind (ends_destroyMember h₂ (by rw [T.moved_kind, hold]) fun w₃ h₃ => ?_)
      refine ends_onThrow (ends_moveInto h₃ (fun w₄ _ h₄ => hret w₄ _ h₄) fun w₄ hthrows₄ h₄ => ?_)
      rw [hnew] at hthrows₄ h₄
      have hne : script ≠ [] := by
        rintro rfl
        simp at hthrows₄
      -- the handler: moving back names the old member again, or nothing is left
      refine ends_bind (ends_moveInto h₄ (fun w₅ hno₅ h₅ => ?_) fun w₅ hthrows₅ h₅ => ?_)
      · rw [hold] at hno₅
        refine ends_setState h₅ fun w₆ h₆ => ?_
        refine hthrow w₆ ⟨hne, Or.inl ⟨fun hroll => hno₅ hroll.2.2, σ, SameKinds.refl σ, ?_⟩⟩
        rw [settled_focus hi, hold]
        exact h₆.toAt
      · rw [hold] at hthrows₅
        exact hthrow w₅ ⟨hne, Or.inr ⟨⟨hno₁, hthrows₄, hthrows₅⟩, lost_of_at h₅.toAt⟩⟩
    · have hne : script ≠ [] := by
        rintro rfl
        simp at hthrows
      refine hthrow w₁ ⟨hne, Or.inl ⟨fun hroll => hroll.1 hthrows, _,
        (SameKinds.refl σ).update hi hk, ?_⟩⟩
      rw [settled_update, hk]
      exact h₁.toAt

/-- `exchange` after the new member has been built from `args`. -/
def DoubleThrow (T : Types V W) (nothrow : Bool) (old new : Kind)
    (script : List (Option (Damage V W))) : Prop :=
  ¬ Throws T nothrow script ∧ Rollback T old new (rest T nothrow script)

/-- STEP: the member is replaced by one built from `args`, which may refer into it. -/
theorem ends_rebuild (h : Is (settled σ) script w) (hb : args.Bound σ w new) (hi : σ i = some m)
    (hold : m.kind = old)
    (hret : ∀ w' σ' m', args.result σ = (some m', σ') → At (settled (update σ' i (some m'))) w' →
      Q () w') (hthrow : ∀ w', Exits σ (DoubleThrow T nothrow old new script) script w' → R w') : (do
      let incoming ← build T nothrow args
      exchange T i old new incoming
      setState i new.state : Prog (World I V W) Unit).Ends w Q R := by
  refine ends_bind (ends_build h hb ?_ ?_)
  · intro w₁ m' σ' hresult hk hkinds hno h₁
    obtain ⟨m₁, hm₁, hkind⟩ := hkinds.held hi
    refine ends_bind (ends_exchange h₁ hm₁ (hkind.trans hold) hk ?_ ?_)
    · intro w₂ script₂ h₂
      refine ends_setState h₂ fun w₃ h₃ => hret w₃ σ' m' hresult ?_
      rw [settled_update, hk]
      exact h₃.toAt
    · rintro w₂ ⟨hne, hexit⟩
      refine hthrow w₂ ⟨?_, ?_⟩
      · rintro rfl
        simp at hne
      · rcases hexit with ⟨hroll, σ'', hkinds', hat⟩ | ⟨hroll, hlost⟩
        · exact Or.inl ⟨fun hdouble => hroll hdouble.2, σ'', hkinds.trans hkinds', hat⟩
        · exact Or.inr ⟨⟨hno, hroll⟩, hlost⟩
  · intro w₁ hthrows hkept
    refine hthrow w₁ ⟨?_, Or.inl ⟨fun hdouble => hdouble.1 hthrows, hkept⟩⟩
    rintro rfl
    simp at hthrows

/-! ### The operations -/

theorem ends_slotOf {Q : Slot V W → World I V W → Prop} (h : Is (settled σ) script w) (hi : σ i = some m)
    (hret : ∀ id, idAt w i = some id → Q ⟨m.kind.state, some ⟨id, m⟩⟩ w) : (slotOf i).Ends w Q R := by
  have hfocus := h.toAt
  rw [settled_focus hi] at hfocus
  obtain ⟨id, hslot, hid⟩ := hfocus.slot_some
  unfold Ends EndsOr slotOf
  simp only [hslot]
  exact hret id hid

theorem Kind.state_ne_switching (k : Kind) : k.state ≠ .switching := by
  cases k <;> simp [Kind.state]

theorem Kind.state_inj {k k' : Kind} : k.state = k'.state ↔ k = k' := by
  cases k <;> cases k' <;> simp [Kind.state]

theorem ends_requireSettled (h : Is (settled σ) script w) (hi : σ i = some m) (hret : Q () w) :
    (requireSettled i).Ends w Q R := by
  refine ends_bind (ends_slotOf h hi fun id _ => ?_)
  simp only [m.kind.state_ne_switching, if_false]
  exact hret

theorem reinitAs_eq (T : Types V W) (i : I) (k : Kind) (nothrow : Bool) (args : Ref I V W) :
    reinitAs T i k nothrow args = (do
      let incoming ← build T nothrow args
      exchange T i k.other k incoming
      setState i k.state) := by
  cases k <;> rfl

theorem Kind.eq_other {k k' : Kind} (h : k ≠ k') : k = k'.other := by
  cases k <;> cases k' <;> simp [Kind.other] at h ⊢

section

variable (h : Is (settled σ) script w)
include h

theorem ends_assignOrRebind {value : Ref I V W} (hb : value.Bound σ w k) (hi : σ i = some m)
    (hret : ∀ w' σ' m', value.result σ = (some m', σ') →
      At (settled (update σ' i (some m'))) w' → Q () w')
    (hthrow : ∀ w', Exits σ (m.kind ≠ k ∧ DoubleThrow T nothrow m.kind k script) script w' → R w') :
    (assignOrRebind T i k nothrow value).Ends w Q R := by
  refine ends_bind (ends_requireSettled h hi ?_)
  refine ends_bind (ends_slotOf h hi fun id _ => ?_)
  by_cases hk : m.kind = k
  · rw [if_pos (Kind.state_inj.mpr hk)]
    refine ends_assign h hb hi hk hret fun w' hthrows hkept => hthrow w' ⟨?_, ?_⟩
    · rintro rfl
      simp at hthrows
    · exact Or.inl ⟨fun hroll => hroll.1 hk, hkept⟩
  · rw [if_neg (mt Kind.state_inj.mp hk), reinitAs_eq, ← Kind.eq_other hk]
    refine ends_rebuild h hb hi rfl hret fun w' hexit => hthrow w' ?_
    simpa only [ne_eq, hk, not_false_eq_true, true_and] using hexit

theorem ends_emplaceAs (hb : args.Bound σ w k) (hi : σ i = some m)
    (hret : ∀ w' σ' m', args.result σ = (some m', σ') → At (settled (update σ' i (some m'))) w' → Q () w')
    (hthrow : ∀ w', Exits σ (DoubleThrow T false m.kind k script) script w' → R w') :
    (emplaceAs T i k args).Ends w Q R := by
  refine ends_bind (ends_requireSettled h hi ?_)
  refine ends_bind (ends_slotOf h hi fun id _ => ?_)
  by_cases hk : m.kind = k
  · rw [if_pos (Kind.state_inj.mpr hk)]
    subst hk
    exact ends_rebuild h hb hi rfl hret hthrow
  · rw [if_neg (mt Kind.state_inj.mp hk), reinitAs_eq, ← Kind.eq_other hk]
    exact ends_rebuild h hb hi rfl hret hthrow

theorem ends_assignFrom {nothrow : Kind → Bool} {left : Member V W → Member V W} (hi : σ i = some m)
    (hj : σ j = some n) (hleft : ∀ m, (left m).kind = m.kind) (hself : i = j → Q () w)
    (hret : ∀ w', i ≠ j → At (settled (update (update σ j (some (left n))) i (some n))) w' → Q () w')
    (hthrow : ∀ w', Exits σ (m.kind ≠ n.kind ∧ DoubleThrow T (nothrow n.kind) m.kind n.kind script)
      script w' → R w') : (assignFrom T i j nothrow left).Ends w Q R := by
  refine ends_bind (ends_requireSettled h hi ?_)
  refine ends_bind (ends_requireSettled h hj ?_)
  by_cases hij : i = j
  · rw [if_pos hij]
    exact hself hij
  · rw [if_neg hij]
    refine ends_bind (ends_slotOf h hj fun id hid => ?_)
    have hk : (if n.kind.state = .value then Kind.value else Kind.error) = n.kind := by
      cases n.kind <;> rfl
    simp only [hk]
    refine ends_assignOrRebind h ⟨hid, hleft, n, hj, rfl⟩ hi ?_ hthrow
    intro w' σ' m' hresult hat
    simp only [Ref.result, hj, Prod.mk.injEq, Option.some.injEq] at hresult
    obtain ⟨rfl, rfl⟩ := hresult
    exact hret w' hij hat

/-! ### `swap` -/

theorem ends_swapMembers (hi : σ i = some m) (hj : σ j = some n) (hk : m.kind = n.kind)
    (hret : ∀ w', At (settled (update (update σ i (some n)) j (some m))) w' →
      Q () w') (hthrow : ∀ w', Exits σ False script w' → R w') : (swapMembers T i j).Ends w Q R := by
  refine ends_bind (ends_userCall h ?_ ?_)
  · rintro w₁ - h₁ -
    have hfocus := h₁.toAt
    rw [settled_focus hi] at hfocus
    obtain ⟨a, hslotᵢ, -⟩ := hfocus.slot_some
    have hfocus := h₁.toAt
    rw [settled_focus hj] at hfocus
    obtain ⟨b, hslotⱼ, -⟩ := hfocus.slot_some
    unfold EndsOr exchangeContents
    simp only [hslotᵢ, hslotⱼ]
    refine hret _ ?_
    have halterᵢ := h₁.toAt.alter i fun _ => n
    rw [settled_focus hi, alterShape_update, hk, ← settled_update] at halterᵢ
    obtain ⟨n', hn', hkind⟩ : ∃ n', update σ i (some n) j = some n' ∧ n'.kind = m.kind := by
      by_cases hji : j = i
      · exact ⟨n, by rw [hji, update_self], hk.symm⟩
      · exact ⟨n, by rw [update_of_ne hji, hj], hk.symm⟩
    have halterⱼ := halterᵢ.alter j fun _ => m
    rw [settled_focus hn', alterShape_update, hkind, ← settled_update] at halterⱼ
    exact halterⱼ
  · intro w₁ d hthrows h₁
    obtain ⟨σ', hσ', hkinds⟩ := damaged_settled σ d [i, j]
    refine hthrow w₁ ⟨?_, Or.inl ⟨id, σ', hkinds, hσ' ▸ h₁.toAt⟩⟩
    rintro rfl
    simp at hthrows

end

/-- Both operands of `swap_value_error` are switching; the other expecteds stand as in `σ`. -/
abbrev switchingPair (σ : Abs I V W) (v e : I) (x y : Option (Member V W)) : Shape I V W :=
  update (update (settled σ) v (some (.switching, x))) e (some (.switching, y))

section Across
variable {v e : I} {a : V} {b : W}

/-- The handler's last two steps: the operands are named again. -/
theorem ends_rename {p q : Member V W} (hve : v ≠ e)
    (h : Is (switchingPair σ v e (some p) (some q)) script w)
    (hret : ∀ w', At (settled (update (update σ v (some p)) e (some q))) w' → Q () w') : (do
      setState v p.kind.state
      setState e q.kind.state : Prog (World I V W) Unit).Ends w Q R := by
  rw [switchingPair, update_comm hve] at h
  refine ends_bind (ends_setState h fun w₁ h₁ => ?_)
  rw [update_comm hve.symm] at h₁
  refine ends_setState h₁ fun w₂ h₂ => hret w₂ ?_
  rw [settled_update, settled_update]
  exact h₂.toAt

theorem ends_swapThroughError (hve : v ≠ e)
    (h : Is (switchingPair σ v e (some (.value a)) (some (.error b))) script w)
    (hmove : T.nothrowMove .error = true) (hv : σ v = some (.value a)) (he : σ e = some (.error b))
    (hret : ∀ w' script', Is (switchingPair σ v e (some (.error b)) (some (.value a))) script' w' →
      Q () w') (hthrow : ∀ w', Exits σ False script w' → R w') : (swapThroughError T v e).Ends w Q R := by
  have hno : ∀ script, ¬ Throws T (T.nothrowMove .error) script := by
    intro script
    exact not_throws_of_nothrow (by simp [hmove])
  refine ends_bind (ends_moveOut h rfl (fun w₁ _ h₁ => ?_) fun w₁ _ hthrows => absurd hthrows (hno _))
  refine ends_bind (ends_destroyMember h₁ rfl fun w₂ h₂ => ?_)
  -- the value crosses; if its move throws, the error is moved back
  have hcross : ∀ w₃ script₃, Is (switchingPair σ v e (some (T.moved (.value a))) (some (.value a)))
      script₃ w₃ → (do
        destroyMember v .value
        moveInto T v (.error b) : Prog (World I V W) Unit).Ends w₃ Q R := by
    intro w₃ script₃ h₃
    rw [switchingPair, update_comm hve] at h₃
    refine ends_bind (ends_destroyMember h₃ (T.moved_kind _) fun w₄ h₄ => ?_)
    refine ends_moveInto h₄ (fun w₅ _ h₅ => ?_) fun w₅ hthrows => absurd hthrows (hno _)
    rw [update_comm hve.symm] at h₅
    exact hret w₅ _ h₅
  refine ends_bind ?_
  split
  · rename_i hvalue
    refine ends_moveAcross hve.symm h₂ rfl (fun w₃ h₃ => hcross w₃ _ h₃) fun w₃ m' hthrows => ?_
    exact absurd hthrows (not_throws_of_nothrow hvalue)
  · refine ends_onThrow (ends_moveAcross hve.symm h₂ rfl (fun w₃ h₃ => hcross w₃ _ h₃) ?_)
    intro w₃ m' hthrows hk h₃
    refine ends_bind (ends_moveInto h₃ (fun w₄ _ h₄ => ?_) fun w₄ hthrows => absurd hthrows (hno _))
    have hstate : m'.kind.state = .value := by rw [hk]; rfl
    have hrename := ends_rename hve (R := R) h₄ (Q := fun _ => R) fun w₅ h₅ => ?_
    · rw [hstate] at hrename
      exact hrename
    · refine hthrow w₅ ⟨?_, Or.inl ⟨id, _, ?_, h₅⟩⟩
      · rintro rfl
        simp at hthrows
      · refine ((SameKinds.refl σ).update hv hk).update (m := .error b) ?_ rfl
        rw [update_of_ne hve.symm, he]

theorem ends_swapThroughValue (hve : v ≠ e)
    (h : Is (switchingPair σ v e (some (.value a)) (some (.error b))) script w)
    (hmove : T.nothrowMove .value = true) (hv : σ v = some (.value a)) (he : σ e = some (.error b))
    (hret : ∀ w' script', Is (switchingPair σ v e (some (.error b)) (some (.value a))) script' w' →
      Q () w') (hthrow : ∀ w', Exits σ False script w' → R w') : (swapThroughValue T v e).Ends w Q R := by
  have hno : ∀ script, ¬ Throws T (T.nothrowMove .value) script := by
    intro script
    exact not_throws_of_nothrow (by simp [hmove])
  rw [switchingPair, update_comm hve] at h
  refine ends_bind (ends_moveOut h rfl (fun w₁ _ h₁ => ?_) fun w₁ _ hthrows => absurd hthrows (hno _))
  refine ends_bind (ends_destroyMember h₁ rfl fun w₂ h₂ => ?_)
  refine ends_bind (ends_onThrow (ends_moveAcross hve h₂ rfl (fun w₃ h₃ => ?_) ?_))
  · rw [update_comm hve.symm] at h₃
    refine ends_bind (ends_destroyMember h₃ (T.moved_kind _) fun w₄ h₄ => ?_)
    exact ends_moveInto h₄ (fun w₅ _ h₅ => hret w₅ _ h₅) fun w₅ hthrows => absurd hthrows (hno _)
  · intro w₃ m' hthrows hk h₃
    refine ends_bind (ends_moveInto h₃ (fun w₄ _ h₄ => ?_) fun w₄ hthrows => absurd hthrows (hno _))
    rw [update_comm hve.symm] at h₄
    have hstate : m'.kind.state = .error := by rw [hk]; rfl
    have hrename := ends_rename hve (R := R) h₄ (Q := fun _ => R) fun w₅ h₅ => ?_
    · rw [hstate] at hrename
      exact hrename
    · refine hthrow w₅ ⟨?_, Or.inl ⟨id, _, ?_, h₅⟩⟩
      · rintro rfl
        simp at hthrows
      · have hkinds : SameKinds σ (update σ v (some (.value a))) := (SameKinds.refl σ).update hv rfl
        refine hkinds.update (m := .error b) ?_ hk
        rw [update_of_ne hve.symm, he]

end Across

section

variable (h : Is (settled σ) script w)
include h

/-- STEP: across the kinds, the one move that can throw is made while the other member is set aside in
    a type whose move cannot. -/
theorem ends_swapValueError {v e : I} {a : V} {b : W} (hv : σ v = some (.value a))
    (he : σ e = some (.error b)) (hmove : (T.nothrowMove .value || T.nothrowMove .error) = true)
    (hret : ∀ w', At (settled (update (update σ v (some (.error b))) e
      (some (.value a)))) w' → Q () w') (hthrow : ∀ w', Exits σ False script w' → R w') :
    (swapValueError T v e).Ends w Q R := by
  have hve : v ≠ e := by
    rintro rfl
    rw [hv] at he
    cases he
  rw [settled_focus hv] at h
  refine ends_bind (ends_setState h fun w₁ h₁ => ?_)
  have hfocus : update (settled σ) v (some (State.switching, some (Member.value a))) =
      update (update (settled σ) v (some (.switching, some (.value a)))) e
        (some (.error, some (.error b))) := by
    rw [update_comm hve]
    congr 1
    exact settled_focus he
  rw [hfocus] at h₁
  refine ends_bind (ends_setState h₁ fun w₂ h₂ => ?_)
  have hdone : ∀ w' script', Is (switchingPair σ v e (some (.error b)) (some (.value a))) script' w' → (do
        setState v .error
        setState e .value : Prog (World I V W) Unit).Ends w' Q R := fun w' script' h' =>
    ends_rename hve (p := .error b) (q := .value a) h' hret
  refine ends_bind ?_
  split
  · rename_i herror
    exact ends_swapThroughError hve h₂ herror hv he hdone hthrow
  · rename_i herror
    have hvalue : T.nothrowMove .value = true := by simpa [herror] using hmove
    exact ends_swapThroughValue hve h₂ hvalue hv he hdone hthrow

theorem ends_swap (hi : σ i = some m) (hj : σ j = some n)
    (hmove : (T.nothrowMove .value || T.nothrowMove .error) = true)
    (hret : ∀ w', At (settled (update (update σ i (some n)) j (some m))) w' →
      Q () w') (hthrow : ∀ w', Exits σ False script w' → R w') : (swap T i j).Ends w Q R := by
  refine ends_bind (ends_requireSettled h hi ?_)
  refine ends_bind (ends_requireSettled h hj ?_)
  refine ends_bind (ends_slotOf h hi fun _ _ => ?_)
  refine ends_bind (ends_slotOf h hj fun _ _ => ?_)
  cases m with
  | value a =>
    cases n with
    | value b => exact ends_swapMembers h hi hj rfl hret hthrow
    | error b => exact ends_swapValueError h hi hj hmove hret hthrow
  | error a =>
    cases n with
    | value b =>
      have hij : i ≠ j := by
        rintro rfl
        rw [hi] at hj
        cases hj
      rw [update_comm hij] at hret
      exact ends_swapValueError h hj hi hmove hret hthrow
    | error b => exact ends_swapMembers h hi hj rfl hret hthrow

/-! ### Construction and destruction -/

theorem ends_create (hi : σ i = none) (hret : ∀ w', At (settled (update σ i (some m))) w' → Q () w')
    (hthrow : ∀ w', Exits σ False script w' → R w') : (create T i m).Ends w Q R := by
  refine ends_bind (ends_userCall h ?_ ?_)
  · rintro w₁ - h₁ -
    have hslot : w₁.slot i = none := h₁.toAt.slot_gone (by simp [settled, hi])
    have hid : idAt w₁ i = none := by simp [idAt, hslot]
    unfold EndsOr addSlot
    simp only [hslot]
    refine hret _ ⟨?_, ?_, h₁.seen⟩
    · have hput := shape_put (w := w₁) (i := i) ⟨m.kind.state, some ⟨w₁.built, m⟩⟩
      rw [h₁.shape_eq] at hput
      rw [settled_update]
      exact hput
    · have hput := idAt_put (w := w₁) (i := i) ⟨m.kind.state, some ⟨w₁.built, m⟩⟩
      exact hput ▸ h₁.ledger.build hid
  · intro w₁ d hthrows h₁
    refine hthrow w₁ ⟨?_, Or.inl ⟨id, σ, SameKinds.refl σ, h₁.toAt⟩⟩
    rintro rfl
    simp at hthrows

theorem ends_destroy (hi : σ i = some m) (hret : ∀ w', At (settled (update σ i none)) w' → Q () w') :
    (destroy i).Ends w Q R := by
  refine ends_bind (ends_requireSettled h hi ?_)
  refine ends_bind (ends_slotOf h hi fun _ _ => ?_)
  have hk : (if m.kind.state = .value then Kind.value else Kind.error) = m.kind := by
    cases m <;> rfl
  simp only [hk]
  rw [settled_focus hi] at h
  refine ends_bind (ends_setState h fun w₁ h₁ => ?_)
  refine ends_bind (ends_destroyMember h₁ rfl fun w₂ h₂ => ?_)
  obtain ⟨hslot, hid⟩ := h₂.slot_dead
  refine hret _ ⟨?_, ?_, h₂.seen⟩
  · funext j
    rcases eq_or_ne j i with rfl | hji
    · simp [shape, settled]
    · have hj := congrFun h₂.shape_eq j
      simpa [shape, settled, hji] using hj
  · have hids : idAt { w₂ with slot := update w₂.slot i none } = idAt w₂ := by
      funext j
      rcases eq_or_ne j i with rfl | hji
      · simp [idAt, hslot]
      · simp [idAt, hji]
    rw [hids]
    exact h₂.ledger

end

end Metl.Expected
