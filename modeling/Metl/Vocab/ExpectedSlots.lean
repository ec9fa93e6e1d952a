import Metl.Vocab.Expected
import Metl.Schemes.Ledger

/-! What each primitive of `expected` does to the slots.

    A world is described by its shape: for every expected the discriminant and the contents of the
    member alive in it, if any. Beside the shape stand the ledger of the objects built in the unions
    and the discriminants their destructors could read. Each rule takes the shape at one slot before a
    primitive to the shape after it, along both ways out.

        (value, v) ─setState─▶ (switching, v) ─destroyMember─▶ (switching, dead) ─moveInto─▶ … -/

namespace Metl.Expected

open Metl.Schemes Metl.Schemes.Prog Function

variable {I V W : Type}

/-- Discriminant and contents of every expected. -/
abbrev Shape (I V W : Type) := I → Option (State × Option (Member V W))

/-- The contents of every expected. -/
abbrev Abs (I V W : Type) := I → Option (Member V W)

def shape (w : World I V W) : Shape I V W := fun i =>
  (w.slot i).map fun s => (s.state, s.storage.map Object.member)

def idAt (w : World I V W) (i : I) : Option ℕ := (w.slot i).bind fun s => s.storage.map Object.id

/-- Every discriminant names the member that is alive. -/
def settled (σ : Abs I V W) : Shape I V W := fun i => (σ i).map fun m => (m.kind.state, some m)

structure At (τ : Shape I V W) (w : World I V W) : Prop where
  shape_eq : shape w = τ
  ledger : Ledger (idAt w) w.built (w.destroyed.map Prod.fst)
  seen : ∀ d ∈ w.destroyed, d.2 = .switching

structure Is (τ : Shape I V W) (script : List (Option (Damage V W))) (w : World I V W) : Prop
    extends At τ w where
  script_eq : w.script = script

theorem init_at : At (settled fun _ => none) (init : World I V W) where
  shape_eq := rfl
  ledger := Ledger.init
  seen := by simp [init]

variable {τ : Shape I V W} {w : World I V W}

theorem At.slot_gone {i : I} (h : At τ w) (hi : τ i = none) : w.slot i = none := by
  rw [← h.shape_eq] at hi
  simpa [shape] using hi

theorem At.withScript (h : At τ w) (script : List (Option (Damage V W))) :
    Is τ script { w with script := script } where
  shape_eq := h.shape_eq
  ledger := h.ledger
  seen := h.seen
  script_eq := rfl

/-! ### Which calls throw -/

section Calls
variable {T : Types V W} {nothrow : Bool} {script : List (Option (Damage V W))}

def headThrows : List (Option (Damage V W)) → Bool
  | some _ :: _ => true
  | _ => false

/-- The next call throws. -/
def Throws (T : Types V W) (nothrow : Bool) (script : List (Option (Damage V W))) : Prop :=
  nothrow = false ∧ T.noExceptions = false ∧ headThrows script = true

/-- The script after a call. -/
def rest (T : Types V W) (nothrow : Bool) (script : List (Option (Damage V W))) :
    List (Option (Damage V W)) :=
  if nothrow || T.noExceptions then script else script.tail

@[simp] theorem rest_nil : rest T nothrow [] = [] := by simp [rest]

@[simp] theorem not_throws_nil : ¬ Throws T nothrow [] := by simp [Throws, headThrows]

theorem not_throws_of_nothrow (h : (nothrow || T.noExceptions) = true) : ¬ Throws T nothrow script := by
  rintro ⟨h₁, h₂, -⟩
  simp [h₁, h₂] at h

end Calls

variable [DecidableEq I] {T : Types V W} {τ : Shape I V W} {σ : Abs I V W}
  {script : List (Option (Damage V W))} {w : World I V W} {i j : I} {st st' : State}
  {m m' : Member V W} {k : Kind} {nothrow : Bool} {R : World I V W → Prop}

/-- The contents at one slot change. -/
def alterShape (τ : Shape I V W) (i : I) (f : Member V W → Member V W) : Shape I V W :=
  update τ i ((τ i).map fun s => (s.1, s.2.map f))

@[simp] theorem alterShape_update (f : Member V W → Member V W) :
    alterShape (update τ i (some (st, some m))) i f = update τ i (some (st, some (f m))) := by
  simp [alterShape]

theorem alterShape_settled {f : Member V W → Member V W} (hf : ∀ m, (f m).kind = m.kind) :
    alterShape (settled σ) i f = settled (update σ i ((σ i).map f)) := by
  funext j
  rcases eq_or_ne j i with rfl | hji
  · cases hj : σ j with
    | none => simp [alterShape, settled, hj]
    | some m => simp [alterShape, settled, hj, hf]
  · simp [alterShape, settled, hji]

theorem settled_update (m : Member V W) : settled (update σ i (some m)) =
      update (settled σ) i (some (m.kind.state, some m)) := by
  funext j
  rcases eq_or_ne j i with rfl | hji
  · simp [settled]
  · simp [settled, hji]

theorem settled_focus (h : σ i = some m) :
    settled σ = update (settled σ) i (some (m.kind.state, some m)) := by
  rw [← settled_update, ← h, update_eq_self]

@[simp] theorem Damage.apply_kind (d : Damage V W) (m : Member V W) : (d.apply m).kind = m.kind := by
  cases m <;> rfl

@[simp] theorem Types.moved_kind (T : Types V W) (m : Member V W) : (T.moved m).kind = m.kind := by
  cases m <;> rfl

/-! ### The world behind a shape -/

theorem At.slot {o : Option (Member V W)} (h : At (update τ i (some (st, o))) w) :
    ∃ storage, w.slot i = some ⟨st, storage⟩ ∧ storage.map Object.member = o ∧
      idAt w i = storage.map Object.id := by
  have hi := congrFun h.shape_eq i
  rw [update_self, shape] at hi
  cases hslot : w.slot i with
  | none => simp [hslot] at hi
  | some s =>
    obtain ⟨state, storage⟩ := s
    simp only [hslot, Option.map_some, Option.some.injEq, Prod.mk.injEq] at hi
    obtain ⟨rfl, hstorage⟩ := hi
    exact ⟨storage, rfl, hstorage, by simp [idAt, hslot]⟩

theorem At.slot_some (h : At (update τ i (some (st, some m))) w) :
    ∃ id, w.slot i = some ⟨st, some ⟨id, m⟩⟩ ∧ idAt w i = some id := by
  obtain ⟨storage, hslot, hm, hid⟩ := h.slot
  obtain ⟨o, rfl, rfl⟩ := Option.map_eq_some_iff.mp hm
  exact ⟨o.id, hslot, hid⟩

theorem At.slot_dead (h : At (update τ i (some (st, none))) w) :
    w.slot i = some ⟨st, none⟩ ∧ idAt w i = none := by
  obtain ⟨storage, hslot, hm, hid⟩ := h.slot
  obtain rfl := Option.map_eq_none_iff.mp hm
  exact ⟨hslot, hid⟩

theorem shape_put (s : Slot V W) : shape { w with slot := update w.slot i (some s) } =
      update (shape w) i (some (s.state, s.storage.map Object.member)) := by
  funext j
  rcases eq_or_ne j i with rfl | hji
  · simp [shape]
  · simp [shape, hji]

theorem idAt_put (s : Slot V W) : idAt { w with slot := update w.slot i (some s) } =
      update (idAt w) i (s.storage.map Object.id) := by
  funext j
  rcases eq_or_ne j i with rfl | hji
  · simp [idAt]
  · simp [idAt, hji]

theorem At.alter (h : At τ w) (i : I) (f : Member V W → Member V W) :
    At (alterShape τ i f) (alter w i f) where
  shape_eq := by
    rw [← h.shape_eq]
    funext j
    rcases eq_or_ne j i with rfl | hji
    · cases hslot : w.slot j <;> simp [shape, alterShape, Expected.alter, hslot, comp_def]
    · simp [shape, alterShape, Expected.alter, hji]
  ledger := by
    have hids : idAt (Expected.alter w i f) = idAt w := by
      funext j
      rcases eq_or_ne j i with rfl | hji
      · cases hslot : w.slot j <;> simp [idAt, Expected.alter, hslot, comp_def]
      · simp [idAt, Expected.alter, hji]
    rw [hids]
    exact h.ledger
  seen := h.seen

/-! ### Rules -/

section Rules
variable {Q : Unit → World I V W → Prop} {Q' : Member V W → World I V W → Prop}

/-- What a throwing call leaves of the shape. -/
def damaged (d : Damage V W) (touched : List I) (τ : Shape I V W) : Shape I V W :=
  touched.foldl (fun τ i => alterShape τ i d.apply) τ

variable {touched : List I} {o : Option (Member V W)}

theorem Is.damage (h : Is τ script w) (d : Damage V W) :
    Is (damaged d touched τ) script (touched.foldl (fun w i => alter w i d.apply) w) := by
  induction touched generalizing τ w with
  | nil => exact h
  | cons i touched ih => exact ih ⟨h.toAt.alter i d.apply, h.script_eq⟩

theorem ends_userCall (h : Is τ script w)
    (hret : ∀ w', ¬ Throws T nothrow script → Is τ (rest T nothrow script) w' →
      idAt w' = idAt w → Q () w')
    (hthrow : ∀ w' d, Throws T nothrow script → Is (damaged d touched τ) (rest T nothrow script) w' → R w') :
    (userCall T nothrow touched).Ends w Q R := by
  unfold Ends EndsOr userCall
  by_cases hnothrow : (nothrow || T.noExceptions) = true
  · simp only [hnothrow, if_true]
    refine hret w (not_throws_of_nothrow hnothrow) ?_ rfl
    simpa [rest, hnothrow] using h
  · have hrest : rest T nothrow script = script.tail := by simp [rest, hnothrow]
    rw [hrest] at hret hthrow
    simp only [Bool.or_eq_true, not_or, Bool.not_eq_true] at hnothrow
    obtain ⟨hmove, hexc⟩ := hnothrow
    simp only [hmove, hexc, Bool.or_self, Bool.false_eq_true, if_false, h.script_eq]
    cases script with
    | nil => exact hret w not_throws_nil h rfl
    | cons c rest =>
      cases c with
      | none => exact hret _ (by simp [Throws, headThrows]) (h.toAt.withScript rest) rfl
      | some d => exact hthrow _ d ⟨hmove, hexc, rfl⟩ ((h.toAt.withScript rest).damage d)

/-- A slot rewritten with the same object in it. -/
theorem Is.put {storage : Option (Object V W)} (h : Is (update τ i (some (st, o))) script w)
    (hid : idAt w i = storage.map Object.id) (st' : State) :
    Is (update τ i (some (st', storage.map Object.member))) script
      { w with slot := update w.slot i (some ⟨st', storage⟩) } where
  shape_eq := by rw [shape_put, h.shape_eq, update_idem]
  ledger := by
    rw [idAt_put, ← hid, update_eq_self]
    exact h.ledger
  seen := h.seen
  script_eq := h.script_eq

theorem ends_setState (h : Is (update τ i (some (st, o))) script w)
    (hret : ∀ w', Is (update τ i (some (st', o))) script w' → Q () w') : (setState i st').Ends w Q R := by
  obtain ⟨storage, hslot, hm, hid⟩ := h.slot
  have hput := h.put hid st'
  rw [hm] at hput
  unfold Ends EndsOr setState
  simp only [hslot]
  exact hret _ hput

theorem ends_destroyMember (h : Is (update τ i (some (.switching, some m))) script w) (hk : m.kind = k)
    (hret : ∀ w', Is (update τ i (some (.switching, none))) script w' → Q () w') :
    (destroyMember i k).Ends w Q R := by
  obtain ⟨id, hslot, hid⟩ := h.slot_some
  unfold Ends EndsOr destroyMember
  simp only [hslot, hk, if_true]
  refine hret _ ⟨⟨?_, ?_, ?_⟩, h.script_eq⟩
  · have hput := shape_put (w := w) (i := i) ⟨.switching, none⟩
    rw [h.shape_eq, update_idem] at hput
    exact hput
  · have hput := idAt_put (w := w) (i := i) ⟨.switching, none⟩
    have hledger := h.ledger.destroy hid
    rw [List.map_append]
    exact hput ▸ hledger
  · intro d hd
    rcases List.mem_append.mp hd with hd | hd
    · exact h.seen d hd
    · rw [List.mem_singleton.mp hd]

theorem ends_constructAt (h : Is (update τ i (some (st, none))) script w)
    (hret : ∀ w', Is (update τ i (some (st, some m))) script w' → Q () w') :
    (constructAt i m).Ends w Q R := by
  obtain ⟨hslot, hid⟩ := h.slot_dead
  unfold Ends EndsOr constructAt
  simp only [hslot]
  refine hret _ ⟨⟨?_, ?_, h.seen⟩, h.script_eq⟩
  · have hput := shape_put (w := w) (i := i) ⟨st, some ⟨w.built, m⟩⟩
    rw [h.shape_eq, update_idem] at hput
    exact hput
  · have hput := idAt_put (w := w) (i := i) ⟨st, some ⟨w.built, m⟩⟩
    exact hput ▸ h.ledger.build hid

theorem ends_readMember {left : Member V W → Member V W}
    (h : Is (update τ i (some (st, some m))) script w) (hk : m.kind = k)
    (hret : ∀ w', Is (update τ i (some (st, some (left m)))) script w' → Q' m w') :
    (readMember i k left).Ends w Q' R := by
  obtain ⟨id, hslot, -⟩ := h.slot_some
  have halter := h.toAt.alter i left
  rw [alterShape_update] at halter
  unfold Ends EndsOr readMember
  simp only [hslot, hk, if_true]
  exact hret _ ⟨halter, h.script_eq⟩

theorem ends_moveOut (h : Is (update τ i (some (st, some m))) script w) (hk : m.kind = k)
    (hret : ∀ w', ¬ Throws T (T.nothrowMove k) script →
      Is (update τ i (some (st, some (T.moved m)))) (rest T (T.nothrowMove k) script) w' → Q' m w')
    (hthrow : ∀ w' m', Throws T (T.nothrowMove k) script → m'.kind = m.kind →
      Is (update τ i (some (st, some m'))) (rest T (T.nothrowMove k) script) w' → R w') :
    (moveOut T i k).Ends w Q' R := by
  refine ends_bind (ends_userCall h ?_ ?_)
  · rintro w₁ hno h₁ -
    exact ends_readMember h₁ hk fun w₂ h₂ => hret w₂ hno h₂
  · intro w₁ d hthrows h₁
    rw [damaged, List.foldl_cons, List.foldl_nil, alterShape_update] at h₁
    exact hthrow w₁ _ hthrows (d.apply_kind m) h₁

theorem ends_moveInto (h : Is (update τ i (some (st, none))) script w)
    (hret : ∀ w', ¬ Throws T (T.nothrowMove m.kind) script →
      Is (update τ i (some (st, some m))) (rest T (T.nothrowMove m.kind) script) w' → Q () w')
    (hthrow : ∀ w', Throws T (T.nothrowMove m.kind) script →
      Is (update τ i (some (st, none))) (rest T (T.nothrowMove m.kind) script) w' → R w') :
    (moveInto T i m).Ends w Q R := by
  refine ends_bind (ends_userCall h ?_ ?_)
  · rintro w₁ hno h₁ -
    exact ends_constructAt h₁ fun w₂ h₂ => hret w₂ hno h₂
  · intro w₁ d hthrows h₁
    exact hthrow w₁ hthrows h₁

/-- Two slots are in focus: the source `j`, and the dead storage of `i`. -/
theorem ends_moveAcross (hij : i ≠ j)
    (h : Is (update (update τ j (some (st', some m))) i (some (st, none))) script w) (hk : m.kind = k)
    (hret : ∀ w', Is (update (update τ j (some (st', some (T.moved m)))) i
        (some (st, some m))) (rest T (T.nothrowMove k) script) w' → Q () w')
    (hthrow : ∀ w' m', Throws T (T.nothrowMove k) script → m'.kind = m.kind →
      Is (update (update τ j (some (st', some m'))) i (some (st, none)))
        (rest T (T.nothrowMove k) script) w' → R w') : (moveAcross T i j k).Ends w Q R := by
  rw [update_comm hij.symm] at h
  refine ends_bind (ends_userCall h ?_ ?_)
  · rintro w₁ _ h₁ -
    refine ends_bind (ends_readMember h₁ hk fun w₂ h₂ => ?_)
    rw [update_comm hij] at h₂
    exact ends_constructAt h₂ hret
  · intro w₁ d hthrows h₁
    rw [damaged, List.foldl_cons, List.foldl_nil, alterShape_update, update_comm hij] at h₁
    exact hthrow w₁ _ hthrows (d.apply_kind m) h₁

end Rules

end Metl.Expected
