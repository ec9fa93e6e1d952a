import Mathlib.Logic.Basic

/-! Programs that may throw.

        m s ──▶ ret a s'        returned
            ──▶ thrown s'       left by an exception of the user's code
            ──▶ stopped         a check of the library ended the program
            ──▶ undefined       the program's behaviour is undefined

    `m.Ends s Q R` says that `m`, started in `s`, returns with `Q` or throws with `R`; it neither
    stops nor runs into undefined behaviour. `m.EndsOr S s Q R` lets it stop, with `S`. -/

namespace Metl.Schemes

inductive Outcome (σ α : Type*) where
  | ret (a : α) (s : σ)
  | thrown (s : σ)
  | stopped
  | undefined

/-- The state an exception leaves. -/
def Outcome.state {σ α : Type*} : Outcome σ α → Option σ
  | .thrown s => some s
  | _ => none

theorem Outcome.state_eq_some {σ α : Type*} {o : Outcome σ α} {s : σ} :
    o.state = some s ↔ o = .thrown s := by
  cases o <;> simp [state]

def Prog (σ α : Type*) := σ → Outcome σ α

namespace Prog

universe u v

variable {σ : Type u} {α β : Type v}

protected def pure (a : α) : Prog σ α := fun s => .ret a s

protected def bind (m : Prog σ α) (f : α → Prog σ β) : Prog σ β := fun s =>
  match m s with
  | .ret a s' => f a s'
  | .thrown s' => .thrown s'
  | .stopped => .stopped
  | .undefined => .undefined

instance : Monad (Prog σ) where
  pure := Prog.pure
  bind := Prog.bind

/-- A check of the library fails. -/
def stop : Prog σ α := fun _ => .stopped

/-- The program's behaviour is undefined from here on. -/
def invalid : Prog σ α := fun _ => .undefined

def raise : Prog σ α := fun s => .thrown s

def modify (f : σ → σ) : Prog σ PUnit := fun s => .ret ⟨⟩ (f s)

/-- `try { body } catch (...) { handler; throw; }` -/
def onThrow (body : Prog σ α) (handler : Prog σ Unit) : Prog σ α := fun s =>
  match body s with
  | .ret a s' => .ret a s'
  | .thrown s' =>
    match handler s' with
    | .ret _ s'' => .thrown s''
    | .thrown s'' => .thrown s''
    | .stopped => .stopped
    | .undefined => .undefined
  | .stopped => .stopped
  | .undefined => .undefined

/-- From `s` the program returns with `Q`, throws with `R`, or stops with `S`. -/
def EndsOr (S : Prop) (m : Prog σ α) (s : σ) (Q : α → σ → Prop) (R : σ → Prop) : Prop :=
  match m s with
  | .ret a s' => Q a s'
  | .thrown s' => R s'
  | .stopped => S
  | .undefined => False

/-- From `s` the program returns with `Q` or throws with `R`. -/
abbrev Ends (m : Prog σ α) (s : σ) (Q : α → σ → Prop) (R : σ → Prop) : Prop := m.EndsOr False s Q R

variable {S : Prop} {m : Prog σ α} {s s' : σ} {Q Q' : α → σ → Prop} {R R' : σ → Prop}

variable {S' : Prop} {f : α → Prog σ β}

section

variable (h : m.EndsOr S s Q R)
include h

theorem EndsOr.conseq (hS : S → S') (hQ : ∀ a s', Q a s' → Q' a s') (hR : ∀ s', R s' → R' s') :
    m.EndsOr S' s Q' R' := by
  unfold EndsOr at h ⊢
  split
  · rename_i a s' hm
    rw [hm] at h
    exact hQ a s' h
  · rename_i s' hm
    rw [hm] at h
    exact hR s' h
  · rename_i hm
    rw [hm] at h
    exact hS h
  · rename_i hm
    rw [hm] at h
    exact h

theorem EndsOr.mono (hQ : ∀ a s', Q a s' → Q' a s') (hR : ∀ s', R s' → R' s') :
    m.EndsOr S s Q' R' := h.conseq id hQ hR

theorem EndsOr.imp (hQ : ∀ a s', Q a s' → Q' a s') : m.EndsOr S s Q' R :=
  h.mono hQ fun _ => id

/-- The reason to stop may be given more widely. -/
theorem EndsOr.stops (hS : S → S') : m.EndsOr S' s Q R :=
  h.conseq hS (fun _ _ => id) fun _ => id

end

/-- What a program does that may not stop, it does. -/
theorem EndsOr.weaken (h : m.Ends s Q R) : m.EndsOr S s Q R := h.stops False.elim

/-- The outcome itself may be used where it is described. -/
theorem EndsOr.witness (h : m.EndsOr S s Q R) :
    m.EndsOr S s (fun a s' => m s = .ret a s' ∧ Q a s') fun s' => m s = .thrown s' ∧ R s' := by
  unfold EndsOr at h ⊢
  cases hm : m s with
  | ret a s' =>
    rw [hm] at h
    exact ⟨rfl, h⟩
  | thrown s' =>
    rw [hm] at h
    exact ⟨rfl, h⟩
  | stopped =>
    rw [hm] at h
    exact h
  | undefined =>
    rw [hm] at h
    exact h

theorem ends_stop (h : S) : (stop : Prog σ α).EndsOr S s Q R := h

theorem ends_pure {a : α} (h : Q a s) : (pure a : Prog σ α).EndsOr S s Q R := h

theorem ends_bind {Q : β → σ → Prop} (h : m.EndsOr S s (fun a s' => (f a).EndsOr S s' Q R) R) :
    (m >>= f).EndsOr S s Q R := by
  change (Prog.bind m f).EndsOr S s Q R
  unfold EndsOr at h ⊢
  unfold Prog.bind
  cases hm : m s with
  | ret a s' =>
    rw [hm] at h
    exact h
  | thrown s' =>
    rw [hm] at h
    exact h
  | stopped =>
    rw [hm] at h
    exact h
  | undefined =>
    rw [hm] at h
    exact h

theorem EndsOr.bind {Q' : β → σ → Prop} (h : m.EndsOr S s Q R)
    (hf : ∀ a s', Q a s' → (f a).EndsOr S s' Q' R) : (m >>= f).EndsOr S s Q' R :=
  ends_bind (h.imp hf)

theorem ends_onThrow {handler : Prog σ Unit}
    (h : m.EndsOr S s Q fun s' => handler.EndsOr S s' (fun _ s'' => R s'') R) :
    (m.onThrow handler).EndsOr S s Q R := by
  unfold EndsOr at h ⊢
  unfold onThrow
  cases hm : m s with
  | ret a s' =>
    rw [hm] at h
    exact h
  | thrown s' =>
    simp only [hm] at h ⊢
    cases hh : handler s' with
    | ret a s'' =>
      simp only [hh] at h ⊢
      exact h
    | thrown s'' =>
      simp only [hh] at h ⊢
      exact h
    | stopped =>
      simp only [hh] at h ⊢
      exact h
    | undefined =>
      simp only [hh] at h
  | stopped =>
    rw [hm] at h
    exact h
  | undefined =>
    rw [hm] at h
    exact h

theorem EndsOr.thrown (h : m.EndsOr S s Q R) (hm : m s = .thrown s') : R s' := by
  unfold EndsOr at h
  rw [hm] at h
  exact h

/-- A program that cannot throw returns. -/
theorem EndsOr.returns (h : m.Ends s Q fun _ => False) : ∃ a s', m s = .ret a s' ∧ Q a s' := by
  unfold Ends EndsOr at h
  split at h
  · rename_i a s' hm
    exact ⟨a, s', hm, h⟩
  all_goals exact h.elim

/-- What follows a program that returns. -/
theorem EndsOr.bind_outcome {P : Outcome σ β → Prop} (h : m.Ends s Q fun _ => False)
    (hf : ∀ a s', Q a s' → P (f a s')) : P ((m >>= f) s) := by
  obtain ⟨a, s', hm, hQ⟩ := h.returns
  have hbind : (m >>= f) s = f a s' := by
    change Prog.bind m f s = _
    rw [Prog.bind, hm]
  rw [hbind]
  exact hf a s' hQ

/-- Undefined behaviour does not come back. -/
theorem bind_undefined (h : m s = .undefined) : (m >>= f) s = .undefined := by
  change Prog.bind m f s = _
  rw [Prog.bind, h]

theorem EndsOr.bind_undefined (h : m.Ends s Q fun _ => False)
    (hf : ∀ a s', Q a s' → f a s' = .undefined) : (m >>= f) s = .undefined :=
  h.bind_outcome (P := (· = .undefined)) hf

/-- From `s` the program is undefined if `bad`; if not, it returns with `Q` or stops with `S`. -/
structure Meets (bad S : Prop) (m : Prog σ α) (s : σ) (Q : α → σ → Prop) : Prop where
  undefined : bad → m s = .undefined
  ends : ¬bad → m.EndsOr S s Q fun _ => False

variable {bad : Prop} {f : α → Prog σ β} {Q₂ : β → σ → Prop}

theorem EndsOr.meets (h : m.EndsOr S s Q fun _ => False) (hgood : ¬bad) : m.Meets bad S s Q :=
  ⟨fun hbad => absurd hbad hgood, fun _ => h⟩

theorem meets_undefined (h : m s = .undefined) (hbad : bad) : m.Meets bad S s Q :=
  ⟨fun _ => h, fun hgood => absurd hbad hgood⟩

/-- What goes wrong goes wrong later. -/
theorem EndsOr.bind_meets (h : m.Ends s Q fun _ => False)
    (hf : ∀ a s', Q a s' → (f a).Meets bad S s' Q₂) : (m >>= f).Meets bad S s Q₂ :=
  ⟨fun hbad => h.bind_undefined fun a s' hQ => (hf a s' hQ).undefined hbad,
    fun hgood => h.weaken.bind fun a s' hQ => (hf a s' hQ).ends hgood⟩

/-- What goes wrong goes wrong first. -/
theorem Meets.bind (h : m.Meets bad S s Q)
    (hf : ∀ a s', Q a s' → (f a).EndsOr S s' Q₂ fun _ => False) : (m >>= f).Meets bad S s Q₂ :=
  ⟨fun hbad => Prog.bind_undefined (h.undefined hbad), fun hgood => (h.ends hgood).bind hf⟩

theorem Meets.bind_meets {bad' : Prop} (h : m.Meets bad False s Q)
    (hf : ∀ a s', Q a s' → (f a).Meets bad' S s' Q₂) : (m >>= f).Meets (bad ∨ bad') S s Q₂ := by
  rcases Classical.em bad with hbad | hgood
  · exact meets_undefined (Prog.bind_undefined (h.undefined hbad)) (.inl hbad)
  · rw [or_iff_right hgood]
    exact (h.ends hgood).bind_meets hf

theorem Meets.weaken (h : m.Meets bad False s Q) : m.Meets bad S s Q :=
  ⟨h.undefined, fun hgood => (h.ends hgood).weaken⟩

theorem Meets.imp (h : m.Meets bad S s Q) (hQ : ∀ a s', Q a s' → Q' a s') : m.Meets bad S s Q' :=
  ⟨h.undefined, fun hgood => (h.ends hgood).imp hQ⟩

end Prog

end Metl.Schemes
