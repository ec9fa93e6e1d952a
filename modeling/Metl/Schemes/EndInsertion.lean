import Metl.Schemes.Throwing
import Mathlib.Data.List.Basic

/-! Containers that grow at their ends while element constructors grow them further.

        emplace x ──┬─ claims a slot          l      ──▶  l ·
                    ├─ x's constructor runs   l ·    ──▶  f l · b      calls of its own
                    └─ x is built             f l · b ──▶ f l x b

    A `Script` is what a constructor does: it inserts further elements, whose constructors follow scripts in
    turn, and goes on as the results of its calls say. `perform` is the same on a bounded list, where
    every insertion happens when its call starts. A container that keeps the claimed slots apart from
    the built ones, and fills the slot it claimed, cannot be told from that list. -/

namespace Metl.Schemes

/-- What an element constructor does; `S` are the ends at which elements can be inserted. -/
inductive Script (S A : Type) where
  | done
  /-- Tries to insert `value`, whose constructor does `within`, and goes on according to the result. -/
  | tryInsert (s : S) (value : A) (within : Script S A) (rest : Bool → Script S A)
  /-- Inserts `value` unless the container is full, and goes on with what the reference returned
      denotes. -/
  | insert (s : S) (value : A) (within : Script S A) (rest : Option A → Script S A)

variable {S A W : Type}

/-- A new element at one end. -/
def put (front : S → Bool) (s : S) (a : A) (l : List A) : List A := if front s then a :: l else l ++ [a]

/-- The insertions on a list of at most `cap` elements, in the order in which the calls start. -/
def perform (front : S → Bool) (cap : ℕ) : Script S A → List A → List A
  | .done, l => l
  | .tryInsert s value within rest, l =>
    if l.length < cap then
      perform front cap (rest true) (perform front cap within (put front s value l))
    else perform front cap (rest false) l
  | .insert s value within rest, l =>
    if l.length < cap then
      perform front cap (rest (some value)) (perform front cap within (put front s value l))
    else perform front cap (rest none) l

/-- The calls of a container: `read` follows a reference that `emplace` returned. -/
structure EndContainer (S W A : Type) where
  full : Prog W Bool
  tryEmplace : S → A → Prog W Unit → Prog W Bool
  emplace : S → A → Prog W Unit → Prog W ℕ
  read : ℕ → Prog W A

/-- The constructor's calls on the container. -/
def EndContainer.play (K : EndContainer S W A) : Script S A → Prog W Unit
  | .done => pure ()
  | .tryInsert s value within rest => do
    let b ← K.tryEmplace s value (K.play within)
    K.play (rest b)
  | .insert s value within rest => do
    let full ← K.full
    if full then K.play (rest none)
    else
      let r ← K.emplace s value (K.play within)
      let x ← K.read r
      K.play (rest (some x))

/-! ### What is added at each end -/

/-- The elements before and behind some place of the sequence, each list going outwards. -/
@[ext]
structure Sides (A : Type) where
  before : List A
  behind : List A

namespace Sides

/-- One more element at an end. -/
def push (front : Bool) (x : A) (p : Sides A) : Sides A :=
  if front then ⟨p.before ++ [x], p.behind⟩ else ⟨p.before, p.behind ++ [x]⟩

/-- More elements at both ends. -/
def extend (p q : Sides A) : Sides A := ⟨p.before ++ q.before, p.behind ++ q.behind⟩

def size (p : Sides A) : ℕ := p.before.length + p.behind.length

def sequence (p : Sides A) : List A := p.before.reverse ++ p.behind

/-- The elements, all of them built. -/
def built (p : Sides A) : Sides (Option A) := ⟨p.before.map some, p.behind.map some⟩

variable {p q r : Sides A} {b : Bool} {x : A}

@[simp] theorem extend_nil : p.extend ⟨[], []⟩ = p := by simp [extend]

theorem extend_assoc : (p.extend q).extend r = p.extend (q.extend r) := by
  simp [extend]

@[simp] theorem size_push : (p.push b x).size = p.size + 1 := by
  cases b <;> simp [push, size] <;> omega

@[simp] theorem size_extend : (p.extend q).size = p.size + q.size := by
  simp [extend, size]
  omega

@[simp] theorem size_built : p.built.size = p.size := by simp [built, size]

theorem push_eq_extend : p.push b x = p.extend (push b x ⟨[], []⟩) := by
  cases b <;> simp [push, extend]

theorem built_extend : (p.extend q).built = p.built.extend q.built := by
  simp [built, extend]

theorem built_push : (p.push b x).built = p.built.push b (some x) := by
  cases b <;> simp [built, push]

theorem length_sequence : p.sequence.length = p.size := by simp [sequence, size]

theorem sequence_push {front : S → Bool} {s : S} :
    (p.push (front s) x).sequence = put front s x p.sequence := by
  unfold put
  cases front s <;> simp [push, sequence]

/-- Where the element is that was pushed before the ends grew further. -/
theorem sequence_extend_behind :
    ((p.push false x).extend q).sequence = (q.before.reverse ++ p.sequence) ++ x :: q.behind := by
  simp [push, extend, sequence]

theorem sequence_extend_before :
    ((p.push true x).extend q).sequence = q.before.reverse ++ x :: (p.sequence ++ q.behind) := by
  simp [push, extend, sequence]

theorem sequence_built : p.built.sequence = p.sequence.map some := by simp [built, sequence]

end Sides

open Sides

/-- What a script adds to `n` elements. -/
def growth (front : S → Bool) (cap : ℕ) : Script S A → ℕ → Sides A
  | .done, _ => ⟨[], []⟩
  | .tryInsert s value within rest, n =>
    if n < cap then
      let inner := (push (front s) value ⟨[], []⟩).extend (growth front cap within (n + 1))
      inner.extend (growth front cap (rest true) (n + inner.size))
    else growth front cap (rest false) n
  | .insert s value within rest, n =>
    if n < cap then
      let inner := (push (front s) value ⟨[], []⟩).extend (growth front cap within (n + 1))
      inner.extend (growth front cap (rest (some value)) (n + inner.size))
    else growth front cap (rest none) n

/-- RUN: the list after a script is the sequence with what was added at each end. -/
theorem perform_sequence (front : S → Bool) (cap : ℕ) (t : Script S A) (p : Sides A) :
    perform front cap t p.sequence = (p.extend (growth front cap t p.size)).sequence := by
  induction t generalizing p with
  | done => simp [perform, growth]
  | tryInsert s value within rest ihWithin ihRest =>
    simp only [perform, growth, length_sequence]
    by_cases hroom : p.size < cap
    · rw [if_pos hroom, if_pos hroom, ← sequence_push, ihWithin, ihRest, push_eq_extend]
      simp only [extend_assoc, size_extend, size_push]
      rfl
    · rw [if_neg hroom, if_neg hroom, ihRest]
  | insert s value within rest ihWithin ihRest =>
    simp only [perform, growth, length_sequence]
    by_cases hroom : p.size < cap
    · rw [if_pos hroom, if_pos hroom, ← sequence_push, ihWithin, ihRest, push_eq_extend]
      simp only [extend_assoc, size_extend, size_push]
      rfl
    · rw [if_neg hroom, if_neg hroom, ihRest]

/-! ### Containers that cannot be told from a list -/

/-- What is asked of a container: `holds p w` says that in `w` it has the slots `p`, those claimed and not
    yet built as `none`. -/
structure EndContainer.Implements (K : EndContainer S W A) (front : S → Bool) (cap : ℕ)
    (holds : Sides (Option A) → W → Prop) : Prop where
  bounded : ∀ {p w}, holds p w → p.size ≤ cap
  full : ∀ {p w}, holds p w → K.full.Ends w (fun b w' => b = decide (p.size = cap) ∧ w' = w)
    fun _ => False
  refuse : ∀ {p w s value ctor}, holds p w → p.size = cap →
    (K.tryEmplace s value ctor).Ends w (fun b w' => b = false ∧ w' = w) fun _ => False
  accept : ∀ {p w s value ctor q}, holds p w → p.size < cap →
    (∀ w₁, holds (p.push (front s) none) w₁ →
      ctor.Ends w₁ (fun _ w₂ => holds ((p.push (front s) none).extend q) w₂) fun _ => False) →
    (K.tryEmplace s value ctor).Ends w
      (fun b w' => b = true ∧ holds ((p.push (front s) (some value)).extend q) w') fun _ => False
  refer : ∀ {p w s value ctor q}, holds p w → p.size < cap →
    (∀ w₁, holds (p.push (front s) none) w₁ →
      ctor.Ends w₁ (fun _ w₂ => holds ((p.push (front s) none).extend q) w₂) fun _ => False) →
    (K.emplace s value ctor).Ends w
      (fun r w' => holds ((p.push (front s) (some value)).extend q) w' ∧
        (K.read r).Ends w' (fun x w'' => x = value ∧ w'' = w') fun _ => False) fun _ => False

namespace EndContainer.Implements

open Prog

variable {K : EndContainer S W A} {front : S → Bool} {cap : ℕ} {holds : Sides (Option A) → W → Prop}
  {p : Sides (Option A)} {w : W}

/-- RUN: whatever is claimed when a script starts, it adds what it adds to the list. -/
theorem play_ends (h : K.Implements front cap holds) (t : Script S A) (hp : holds p w) :
    (K.play t).Ends w (fun _ w' => holds (p.extend (growth front cap t p.size).built) w')
      fun _ => False := by
  induction t generalizing p w with
  | done =>
    refine ends_pure ?_
    have hnone : (growth front cap (Script.done : Script S A) p.size).built = ⟨[], []⟩ := rfl
    rwa [hnone, extend_nil]
  | tryInsert s value within rest ihWithin ihRest =>
    rcases Nat.eq_or_lt_of_le (h.bounded hp) with hfull | hroom
    · refine ends_bind ((h.refuse hp hfull).mono ?_ fun _ hfalse => hfalse)
      rintro b w' ⟨rfl, rfl⟩
      simp only [growth]
      rw [if_neg (by omega)]
      exact ihRest false hp
    · refine ends_bind ((h.accept hp hroom fun w₁ h₁ => ihWithin h₁).mono ?_ fun _ hfalse => hfalse)
      rintro b w' ⟨rfl, hw'⟩
      refine (ihRest true hw').mono (fun _ w'' hw'' => ?_) fun _ hfalse => hfalse
      simp only [growth]
      rw [if_pos hroom, built_extend, built_extend, built_push]
      rw [push_eq_extend] at hw''
      simp only [extend_assoc, size_extend, size_push, size_built] at hw'' ⊢
      exact hw''
  | insert s value within rest ihWithin ihRest =>
    refine ends_bind ((h.full hp).mono ?_ fun _ hfalse => hfalse)
    rintro b w' ⟨rfl, rfl⟩
    rcases Nat.eq_or_lt_of_le (h.bounded hp) with hfull | hroom
    · rw [if_pos (decide_eq_true hfull)]
      simp only [growth]
      rw [if_neg (by omega)]
      exact ihRest none hp
    · rw [if_neg (by simp; omega)]
      refine ends_bind ((h.refer hp hroom fun w₁ h₁ => ihWithin h₁).mono ?_ fun _ hfalse => hfalse)
      rintro r w₁ ⟨h₁, hread⟩
      refine ends_bind (hread.mono ?_ fun _ hfalse => hfalse)
      rintro x w₂ ⟨rfl, rfl⟩
      refine (ihRest (some x) h₁).mono (fun _ w₃ h₃ => ?_) fun _ hfalse => hfalse
      simp only [growth]
      rw [if_pos hroom, built_extend, built_extend, built_push]
      rw [push_eq_extend] at h₃
      simp only [extend_assoc, size_extend, size_push, size_built] at h₃ ⊢
      exact h₃

end EndContainer.Implements

end Metl.Schemes
