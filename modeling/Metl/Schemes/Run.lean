import Mathlib

/-! Runs of a partial step function.

    A machine is a step function `σ → α → Option σ`: `none` says that the action is not enabled. A run
    folds the step over a list of actions, and an invariant that every step preserves holds wherever
    the run ends. -/

namespace Metl.Schemes

variable {σ α : Type*}

/-- Run the actions left to right; `none` as soon as one of them is not enabled. -/
def run (step : σ → α → Option σ) : σ → List α → Option σ
  | s, [] => some s
  | s, a :: as => (step s a).bind fun s' => run step s' as

variable {step : σ → α → Option σ}

@[simp] theorem run_nil (s : σ) : run step s [] = some s := rfl

theorem run_cons_some {s s'' : σ} {a : α} {as : List α} :
    run step s (a :: as) = some s'' ↔ ∃ s', step s a = some s' ∧ run step s' as = some s'' := by
  rw [run, Option.bind_eq_some_iff]

theorem run_append (s : σ) (as bs : List α) :
    run step s (as ++ bs) = (run step s as).bind fun s' => run step s' bs := by
  induction as generalizing s with
  | nil => rfl
  | cons a as ih =>
    rw [List.cons_append, run, run, Option.bind_assoc]
    congr 1
    funext s'
    exact ih s'

section Rel

variable {τ : Type*} (next : τ → α → τ) (R : σ → τ → Prop) {as : List α} {s s' : σ} {t : τ}

/-- RUN LEMMA: a relation with the states of a second machine, kept by every step, is kept by every
    run. -/
theorem run_rel (hstep : ∀ s t a s', R s t → step s a = some s' → R s' (next t a)) (h : R s t)
    (hrun : run step s as = some s') : R s' (as.foldl next t) := by
  induction as generalizing s t with
  | nil =>
    rw [run_nil, Option.some.injEq] at hrun
    exact hrun ▸ h
  | cons a as ih =>
    obtain ⟨s₁, hs₁, hrest⟩ := run_cons_some.mp hrun
    exact ih (hstep s t a s₁ h hs₁) hrest

/-- RUN LEMMA: a run goes through when every step does and keeps the relation. -/
theorem run_total (P : α → Prop)
    (hstep : ∀ s t a, R s t → P a → ∃ s', step s a = some s' ∧ R s' (next t a)) (h : R s t)
    (has : ∀ a ∈ as, P a) : ∃ s', run step s as = some s' ∧ R s' (as.foldl next t) := by
  induction as generalizing s t with
  | nil => exact ⟨s, rfl, h⟩
  | cons a as ih =>
    obtain ⟨s₁, hs₁, h₁⟩ := hstep s t a h (has a List.mem_cons_self)
    obtain ⟨s', hrun, h'⟩ := ih h₁ fun b hb => has b (List.mem_cons_of_mem a hb)
    exact ⟨s', run_cons_some.mpr ⟨s₁, hs₁, hrun⟩, h'⟩

end Rel

/-- RUN LEMMA: a property preserved by every step is preserved by every run. -/
theorem run_inv {I : σ → Prop} (hstep : ∀ s a s', I s → step s a = some s' → I s') (as : List α)
    (s s' : σ) (hs : I s) (hrun : run step s as = some s') : I s' :=
  run_rel (t := ()) (fun _ _ => ()) (fun s _ => I s) (fun s _ a s' => hstep s a s') hs hrun

end Metl.Schemes
