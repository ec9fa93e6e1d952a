import Metl.Vocab.IntrusivePtr

/-! `intrusive_ptr` counts exactly.

    Between two statements of an operation a count may differ from the number of references: a local
    variable holds one that no pointer stores any more, or stores one that is not counted yet. The
    invariant carries these as `extra` references.

        p = p->next       extra            count of the head      count of the second
          read, add_ref   one second                1                     2
          store           one head                  1                     2
          release         none                 0, destroyed               1

    The release of the last reference destroys a living object, so nested releases are at most as
    deep as there are living objects. It touches no pointer but the members of the objects it
    destroys. -/

namespace Metl.IntrusivePtr

open Metl.Schemes Metl.Schemes.Prog Function

variable {R O : Type} {arity : O → ℕ}

/-! ## What releases touch -/

/-- What releases may do to the world, apart from what they do to the pointers in `mine`: only the
    members of objects destroyed on the way change, and these are destroyed. -/
structure Cascade (mine : Ptr R arity → Prop) (w w' : World R arity) : Prop where
  alive_le : ∀ o, w'.alive o = true → w.alive o = true
  frame : ∀ p, (w'.ptr p = w.ptr p ∧ w'.built p = w.built p) ∨ mine p ∨
    ∃ o i, p = .inr ⟨o, i⟩ ∧ w.alive o = true ∧ w'.alive o = false
  ended : ∀ o, w.alive o = true → w'.alive o = false → ∀ i, w'.built (.inr ⟨o, i⟩) = false

section Cascade
variable {w w' w'' : World R arity} {o : O} {p : Ptr R arity} {mine mine' : Ptr R arity → Prop}

theorem Cascade.refl (w : World R arity) : Cascade mine w w where
  alive_le := fun _ h => h
  frame := fun _ => Or.inl ⟨rfl, rfl⟩
  ended := fun o h h' => by
    rw [h] at h'
    cases h'

section

variable (h : Cascade mine w w')
include h

theorem Cascade.mono (hmine : ∀ p, mine p → mine' p) : Cascade mine' w w' :=
  { h with
    frame := fun p => by
      rcases h.frame p with hsame | hm | hgone
      · exact Or.inl hsame
      · exact Or.inr (Or.inl (hmine p hm))
      · exact Or.inr (Or.inr hgone) }

theorem Cascade.dead (ho : w.alive o = false) : w'.alive o = false := by
  cases ha : w'.alive o with
  | false => rfl
  | true =>
    rw [h.alive_le o ha] at ho
    cases ho

/-- The pointers a cascade leaves alone: not its own, and not in an object that lives before it. -/
theorem Cascade.same (hmine : ¬mine p) (hp : ∀ o i, p = .inr ⟨o, i⟩ → w.alive o = false) :
    w'.ptr p = w.ptr p ∧ w'.built p = w.built p := by
  rcases h.frame p with hsame | hm | ⟨o, i, rfl, ho, -⟩
  · exact hsame
  · exact absurd hm hmine
  · rw [hp o i rfl] at ho
    cases ho

theorem Cascade.trans (h' : Cascade mine w' w'') (hmine : ∀ o i, mine (.inr ⟨o, i⟩) → w.alive o = false) :
    Cascade mine w w'' where
  alive_le := fun o ho => h.alive_le o (h'.alive_le o ho)
  frame := fun p => by
    rcases h.frame p with ⟨hptr, hbuilt⟩ | hm | ⟨o, i, rfl, ho, hdead⟩
    · rcases h'.frame p with ⟨hptr', hbuilt'⟩ | hm | ⟨o, i, rfl, ho, hdead⟩
      · exact Or.inl ⟨hptr'.trans hptr, hbuilt'.trans hbuilt⟩
      · exact Or.inr (Or.inl hm)
      · exact Or.inr (Or.inr ⟨o, i, rfl, h.alive_le o ho, hdead⟩)
    · exact Or.inr (Or.inl hm)
    · exact Or.inr (Or.inr ⟨o, i, rfl, ho, h'.dead hdead⟩)
  ended := fun o ho hdead i => by
    cases ha : w'.alive o with
    | true => exact h'.ended o ha hdead i
    | false =>
      -- destroyed in the first part: its members are not touched again
      have hnot : ¬mine (.inr ⟨o, i⟩) := by
        intro hm
        rw [hmine o i hm] at ho
        cases ho
      have hsame := h'.same hnot (fun o' i' heq => by cases heq; exact ha)
      rw [hsame.2]
      exact h.ended o ho ha i

end

end Cascade

/-- How many objects live. -/
def livingCount [Fintype O] (w : World R arity) : ℕ := (Finset.univ.filter fun o => w.alive o = true).card

theorem Cascade.livingCount_le [Fintype O] {mine : Ptr R arity → Prop} {w w' : World R arity}
    (h : Cascade mine w w') : livingCount w' ≤ livingCount w := by
  refine Finset.card_le_card ?_
  intro o ho
  simp only [Finset.mem_filter, Finset.mem_univ, true_and] at ho ⊢
  exact h.alive_le o ho

/-! ## Pointers read and written -/

section Programs
variable {S : Prop} {w : World R arity} {p : Ptr R arity} {v : Option O}
  {Q : Unit → World R arity → Prop} {T : World R arity → Prop}

theorem ends_get {Q : Option O → World R arity → Prop} (hp : w.built p = true) (h : Q (w.ptr p) w) :
    (get p).EndsOr S w Q T := by
  unfold EndsOr get
  rw [if_pos hp]
  exact h

variable [DecidableEq O] [DecidableEq R]

theorem ends_store (hp : w.built p = true) (h : Q () { w with ptr := update w.ptr p v }) :
    (store p v).EndsOr S w Q T := by
  unfold EndsOr store
  rw [if_pos hp]
  exact h

theorem ends_build (hp : w.built p = false)
    (h : Q () { w with ptr := update w.ptr p v, built := update w.built p true }) :
    (build p v).EndsOr S w Q T := by
  unfold EndsOr build
  rw [if_neg (by simp [hp])]
  exact h

end Programs

/-! ## Counts -/

/-- The objects whose destructor has run, in order. -/
def destroyed (log : List (Event O)) : List O :=
  log.filterMap fun
    | .destroyed o => some o
    | .dropped _ _ => none

/-- The objects whose count a release dropped to zero, in order. -/
def droppedToZero (log : List (Event O)) : List O :=
  log.filterMap fun
    | .dropped o 0 => some o
    | _ => none

theorem destroyed_append (log : List (Event O)) (event : Event O) :
    destroyed (log ++ [event]) = destroyed log ++ destroyed [event] := List.filterMap_append

theorem droppedToZero_append (log : List (Event O)) (event : Event O) :
    droppedToZero (log ++ [event]) = droppedToZero log ++ droppedToZero [event] :=
  List.filterMap_append

variable [DecidableEq O] [Fintype R] [Fintype O]

/-- The references to `o`: the pointers to it and the detached ones. -/
def refs (w : World R arity) (o : O) : ℕ := held w.ptr o + w.detached o

/-- Counts are right if `extra` references are held outside the pointers. -/
structure Balanced (bits : ℕ) (w : World R arity) (extra : O → ℕ) : Prop where
  count_eq : ∀ o, w.alive o = true → w.count o = refs w o + extra o
  gone : ∀ o, w.alive o = false → refs w o + extra o = 0
  room : ∀ o, refs w o + extra o < 2 ^ bits
  unbuilt : ∀ p, w.built p = false → w.ptr p = none
  members : ∀ o i, w.alive o = true → w.built (.inr ⟨o, i⟩) = true
  once : (destroyed w.log).Nodup
  dead_iff : ∀ o, w.alive o = false ↔ o ∈ destroyed w.log
  at_zero : destroyed w.log = droppedToZero w.log

variable {bits : ℕ} {w : World R arity} {e e' : O → ℕ} {o : O} {p : Ptr R arity} {v : Option O}

section

variable (h : Balanced bits w e)
include h

/-- References may move between pointers, detached references and local variables. -/
theorem Balanced.transport {w' : World R arity} (hrefs : ∀ o, refs w' o + e' o = refs w o + e o)
    (hcount : w'.count = w.count) (halive : w'.alive = w.alive) (hlog : w'.log = w.log)
    (hunbuilt : ∀ p, w'.built p = false → w'.ptr p = none)
    (hmembers : ∀ o i, w.alive o = true → w'.built (.inr ⟨o, i⟩) = true) : Balanced bits w' e' where
  count_eq o ho := by
    rw [hrefs, hcount]
    exact h.count_eq o (halive ▸ ho)
  gone o ho := by
    rw [hrefs]
    exact h.gone o (halive ▸ ho)
  room o := by
    rw [hrefs]
    exact h.room o
  unbuilt := hunbuilt
  members o i ho := hmembers o i (halive ▸ ho)
  once := hlog ▸ h.once
  dead_iff o := by
    rw [halive, hlog]
    exact h.dead_iff o
  at_zero := by
    rw [hlog]
    exact h.at_zero

theorem Balanced.congr (he : ∀ o, e o = e' o) : Balanced bits w e' :=
  h.transport (fun o => by rw [he o]) rfl rfl rfl h.unbuilt h.members

/-- What is referred to lives. -/
theorem Balanced.alive_of_extra (ho : 0 < e o) : w.alive o = true := by
  cases ha : w.alive o with
  | true => rfl
  | false =>
    have := h.gone o ha
    omega

theorem Balanced.target (hp : w.ptr p = some o) : w.built p = true ∧ w.alive o = true := by
  constructor
  · cases hb : w.built p with
    | true => rfl
    | false =>
      rw [h.unbuilt p hb] at hp
      cases hp
  · cases ha : w.alive o with
    | true => rfl
    | false =>
      have hpos := held_pos hp
      have hgone := h.gone o ha
      unfold refs at hgone
      omega

end

/-- STEP: one of several references is given up. -/
theorem Balanced.drop (h : Balanced bits w (fun x => e x + one (some o) x)) (hmore : refs w o + e o ≠ 0) :
    Balanced bits { w with
      count := update w.count o (w.count o - 1)
      log := w.log ++ [.dropped o (w.count o - 1)] } e := by
  have ho : w.alive o = true := h.alive_of_extra (by simp)
  have hcount : w.count o = refs w o + (e o + 1) := by simpa using h.count_eq o ho
  have hlog : destroyed (w.log ++ [.dropped o (w.count o - 1)]) = destroyed w.log := by
    rw [destroyed_append]
    simp [destroyed]
  have hzero : droppedToZero (w.log ++ [.dropped o (w.count o - 1)]) = droppedToZero w.log := by
    obtain ⟨k, hk⟩ := Nat.exists_eq_succ_of_ne_zero (show w.count o - 1 ≠ 0 by omega)
    rw [droppedToZero_append, hk]
    simp [droppedToZero]
  refine ⟨?_, ?_, ?_, h.unbuilt, h.members, ?_, ?_, ?_⟩
  · intro x hx
    change update w.count o _ x = refs w x + e x
    rcases eq_or_ne x o with rfl | hxo
    · rw [update_self]
      omega
    · rw [update_of_ne hxo, h.count_eq x hx, one_some_of_ne hxo, add_zero]
  · intro x hx
    have hgone := h.gone x hx
    change refs w x + e x = 0
    omega
  · intro x
    have hroom := h.room x
    change refs w x + e x < _
    omega
  · exact hlog ▸ h.once
  · intro x
    change w.alive x = false ↔ x ∈ destroyed (w.log ++ [.dropped o (w.count o - 1)])
    rw [hlog]
    exact h.dead_iff x
  · change destroyed (w.log ++ [.dropped o (w.count o - 1)]) = _
    rw [hlog, hzero]
    exact h.at_zero

/-- The world in which the destructor of `o` has just begun, its count dropped to zero. -/
def dying (w : World R arity) (o : O) : World R arity :=
  { w with
    count := update w.count o 0
    alive := update w.alive o false
    log := w.log ++ [.dropped o 0] ++ [.destroyed o] }

omit [Fintype R] [Fintype O] in
theorem alive_dying {x : O} : (dying w o).alive x = true ↔ x ≠ o ∧ w.alive x = true := by
  by_cases hxo : x = o
  · simp [dying, hxo]
  · simp [dying, hxo]

/-- STEP: the last reference is given up. -/
theorem Balanced.dying (h : Balanced bits w (fun x => e x + one (some o) x))
    (hlast : refs w o + e o = 0) : Balanced bits (dying w o) e := by
  have ho : w.alive o = true := h.alive_of_extra (by simp)
  have hlog : destroyed (IntrusivePtr.dying w o).log = destroyed w.log ++ [o] := by
    rw [IntrusivePtr.dying, destroyed_append, destroyed_append]
    simp [destroyed]
  have hzero : droppedToZero (IntrusivePtr.dying w o).log = droppedToZero w.log ++ [o] := by
    rw [IntrusivePtr.dying, droppedToZero_append, droppedToZero_append]
    simp [droppedToZero]
  have hnot : o ∉ destroyed w.log := by
    intro hmem
    rw [(h.dead_iff o).mpr hmem] at ho
    cases ho
  refine ⟨?_, ?_, ?_, h.unbuilt, ?_, ?_, ?_, ?_⟩
  · intro x hx
    obtain ⟨hxo, hx⟩ := alive_dying.mp hx
    change update w.count o 0 x = refs w x + e x
    rw [update_of_ne hxo, h.count_eq x hx, one_some_of_ne hxo, add_zero]
  · intro x hx
    change refs w x + e x = 0
    by_cases hxo : x = o
    · rw [hxo]
      exact hlast
    · have hgone := h.gone x ((update_of_ne hxo _ _).symm.trans hx)
      omega
  · intro x
    have hroom := h.room x
    change refs w x + e x < _
    omega
  · intro x i hx
    exact h.members x i (alive_dying.mp hx).2
  · rw [hlog, List.nodup_append]
    refine ⟨h.once, by simp, ?_⟩
    intro x hx y hy
    rw [List.mem_singleton.mp hy]
    rintro rfl
    exact hnot hx
  · intro x
    rw [hlog, List.mem_append, List.mem_singleton]
    change update w.alive o false x = false ↔ _
    by_cases hxo : x = o
    · simp [hxo]
    · rw [update_of_ne hxo, h.dead_iff]
      simp [hxo]
  · rw [hlog, hzero, h.at_zero]

omit [Fintype R] in
theorem livingCount_dying (ho : w.alive o = true) : livingCount (dying w o) < livingCount w := by
  refine Finset.card_lt_card ⟨?_, ?_⟩
  · intro x hx
    rw [Finset.mem_filter] at hx ⊢
    exact ⟨hx.1, (alive_dying.mp hx.2).2⟩
  · intro hsub
    have hmem := hsub (Finset.mem_filter.mpr ⟨Finset.mem_univ o, ho⟩)
    exact (alive_dying.mp (Finset.mem_filter.mp hmem).2).1 rfl

variable [DecidableEq R]

theorem refs_store (w : World R arity) (p : Ptr R arity) (v : Option O) (o : O) :
    refs { w with ptr := update w.ptr p v } o + one (w.ptr p) o = refs w o + one v o := by
  have hheld := held_update w.ptr p v o
  unfold refs
  change held (update w.ptr p v) o + w.detached o + _ = _
  omega

/-- STEP: a reference goes into a pointer, the one it held comes out. -/
theorem Balanced.store (h : Balanced bits w (fun o => e o + one v o)) (hp : w.built p = true) :
    Balanced bits { w with ptr := update w.ptr p v } (fun o => e o + one (w.ptr p) o) := by
  refine h.transport (fun o => ?_) rfl rfl rfl (fun q hq => ?_) h.members
  · have hrefs := refs_store w p v o
    omega
  · have hqp : q ≠ p := by
      rintro rfl
      rw [hp] at hq
      cases hq
    exact (update_of_ne hqp ..).trans (h.unbuilt q hq)

/-- STEP: a reference goes into a new pointer. -/
theorem Balanced.build (h : Balanced bits w (fun o => e o + one v o)) (hp : w.built p = false) :
    Balanced bits { w with ptr := update w.ptr p v, built := update w.built p true }
      e := by
  refine h.transport (fun o => ?_) rfl rfl rfl (fun q hq => ?_) (fun o i ho => ?_)
  · have hheld := held_update w.ptr p v o
    rw [h.unbuilt p hp, one_none] at hheld
    change held (update w.ptr p v) o + w.detached o + e o = held w.ptr o + w.detached o + _
    omega
  · rcases eq_or_ne q p with rfl | hqp
    · have hq : update w.built q true q = false := hq
      rw [update_self] at hq
      cases hq
    · have hq : update w.built p true q = false := hq
      rw [update_of_ne hqp] at hq
      exact (update_of_ne hqp ..).trans (h.unbuilt q hq)
  · by_cases hqp : .inr ⟨o, i⟩ = p
    · rw [← hqp]
      exact update_self ..
    · exact (update_of_ne hqp ..).trans (h.members o i ho)

/-- STEP: a null pointer that is no member of a living object is destroyed. -/
theorem Balanced.unbuild (h : Balanced bits w e) (hptr : w.ptr p = none)
    (hp : ∀ o i, p = .inr ⟨o, i⟩ → w.alive o = false) :
    Balanced bits { w with built := update w.built p false } e := by
  refine h.transport (fun _ => rfl) rfl rfl rfl (fun q hq => ?_) (fun o i ho => ?_)
  · by_cases hqp : q = p
    · rw [hqp]
      exact hptr
    · have hq : update w.built p false q = false := hq
      rw [update_of_ne hqp] at hq
      exact h.unbuilt q hq
  · have hne : .inr ⟨o, i⟩ ≠ p := by
      intro heq
      rw [hp o i heq.symm] at ho
      cases ho
    exact (update_of_ne hne ..).trans (h.members o i ho)

/-! ## Releases -/

/-- `release` gives up one reference, in a world with at most `n` living objects. -/
def Releases (bits : ℕ) (release : O → Program R arity Unit) (n : ℕ) : Prop :=
  ∀ (o : O) (e : O → ℕ) (w : World R arity), Balanced bits w (fun x => e x + one (some o) x) →
    livingCount w ≤ n →
    (release o).Ends w (fun _ w' => Balanced bits w' e ∧ Cascade (fun _ => False) w w') fun _ => False

section Release
variable {release : O → Program R arity Unit} {n : ℕ}

/-- STEP: `release_and_store`, when `incoming` is held outside the pointers. -/
theorem ends_releaseAndStore (hrel : Releases bits release n)
    (h : Balanced bits w (fun x => e x + one v x)) (hp : w.built p = true) (hn : livingCount w ≤ n) :
    (releaseAndStore release p v).Ends w (fun _ w' => Balanced bits w' e ∧
      Cascade (fun _ => False) { w with ptr := update w.ptr p v } w') fun _ => False := by
  have hstored := h.store hp
  refine ends_bind (ends_get hp (ends_bind (ends_store hp ?_)))
  cases hold : w.ptr p with
  | none =>
    rw [hold] at hstored
    exact ends_pure ⟨hstored.congr (fun o => by simp), Cascade.refl _⟩
  | some o =>
    rw [hold] at hstored
    exact hrel o e _ hstored hn

/-- STEP: a member of an object that is being destroyed. -/
theorem ends_destroyMember (hrel : Releases bits release n) (h : Balanced bits w e) {i : Fin (arity o)}
    (hp : w.built (.inr ⟨o, i⟩) = true) (ho : w.alive o = false) (hn : livingCount w ≤ n) :
    (destroyPtr release (.inr ⟨o, i⟩)).Ends w (fun _ w' => Balanced bits w' e ∧
      w'.built (.inr ⟨o, i⟩) = false ∧ Cascade (· = .inr ⟨o, i⟩) w w') fun _ => False := by
  have hnull : Balanced bits w (fun x => e x + one none x) := h.congr (fun x => by simp)
  refine ends_bind ((ends_releaseAndStore hrel hnull hp hn).mono ?_ (fun _ hf => hf))
  rintro _ w₁ ⟨hbal, hcascade⟩
  obtain ⟨hptr, hbuilt⟩ := hcascade.same (p := .inr ⟨o, i⟩) (fun hf => hf)
    (fun o' i' heq => by cases heq; exact ho)
  have hptr : w₁.ptr (.inr ⟨o, i⟩) = none := by rw [hptr]; exact update_self ..
  have ho₁ : w₁.alive o = false := hcascade.dead ho
  refine ⟨?_, update_self .., ?_⟩
  · exact hbal.unbuild hptr (fun o' i' heq => by cases heq; exact ho₁)
  · refine ⟨hcascade.alive_le, ?_, ?_⟩
    · intro q
      by_cases hqp : q = .inr ⟨o, i⟩
      · exact Or.inr (Or.inl hqp)
      · rcases hcascade.frame q with ⟨hq, hb⟩ | hf | hgone
        · refine Or.inl ⟨hq.trans (update_of_ne hqp ..), ?_⟩
          exact (update_of_ne hqp ..).trans hb
        · exact hf.elim
        · exact Or.inr (Or.inr hgone)
    · intro o' hlive hdead i'
      have hne : (.inr ⟨o', i'⟩ : Ptr R arity) ≠ .inr ⟨o, i⟩ := by
        intro heq
        cases heq
        rw [ho] at hlive
        cases hlive
      exact (update_of_ne hne ..).trans (hcascade.ended o' hlive hdead i')

/-- RUN: all the members, one after the other. -/
theorem ends_destroyMembers (hrel : Releases bits release n) (h : Balanced bits w e)
    {is : List (Fin (arity o))} (hnodup : is.Nodup)
    (hbuilt : ∀ i ∈ is, w.built (.inr ⟨o, i⟩) = true) (ho : w.alive o = false)
    (hn : livingCount w ≤ n) :
    (destroyMembers release o is).Ends w (fun _ w' => Balanced bits w' e ∧
      (∀ i ∈ is, w'.built (.inr ⟨o, i⟩) = false) ∧
      Cascade (fun p => ∃ i ∈ is, p = .inr ⟨o, i⟩) w w') fun _ => False := by
  induction is generalizing w with
  | nil => exact ends_pure ⟨h, by simp, Cascade.refl w⟩
  | cons i rest ih =>
    obtain ⟨hi, hrest⟩ := List.nodup_cons.mp hnodup
    refine ends_bind ((ends_destroyMember hrel h (hbuilt i (by simp)) ho hn).mono ?_ (fun _ hf => hf))
    rintro _ w₁ ⟨hbal, hgone, hcascade⟩
    have hbuilt₁ : ∀ j ∈ rest, w₁.built (.inr ⟨o, j⟩) = true := by
      intro j hj
      have hne : (.inr ⟨o, j⟩ : Ptr R arity) ≠ .inr ⟨o, i⟩ := by
        intro heq
        cases heq
        exact hi hj
      rw [(hcascade.same hne (fun o' i' heq => by cases heq; exact ho)).2]
      exact hbuilt j (List.mem_cons_of_mem i hj)
    refine (ih hbal hrest hbuilt₁ (hcascade.dead ho) (le_trans hcascade.livingCount_le hn)).mono ?_
      (fun _ hf => hf)
    rintro _ w₂ ⟨hbal₂, hgone₂, hcascade₂⟩
    refine ⟨hbal₂, ?_, ?_⟩
    · intro j hj
      rcases List.mem_cons.mp hj with rfl | hj
      · have hnot : ¬∃ k ∈ rest, (.inr ⟨o, j⟩ : Ptr R arity) = .inr ⟨o, k⟩ := by
          rintro ⟨k, hk, heq⟩
          cases heq
          exact hi hk
        rw [(hcascade₂.same hnot (fun o' i' heq => by cases heq; exact hcascade.dead ho)).2]
        exact hgone
      · exact hgone₂ j hj
    · refine (hcascade.mono ?_).trans (hcascade₂.mono ?_) ?_
      · rintro _ rfl
        exact ⟨i, by simp, rfl⟩
      · rintro _ ⟨j, hj, rfl⟩
        exact ⟨j, List.mem_cons_of_mem i hj, rfl⟩
      · rintro o' i' ⟨j, -, heq⟩
        cases heq
        exact ho

end Release

/-- STEP: the destructor of an object nothing refers to any more. -/
theorem ends_destroyObject {release : O → Program R arity Unit} {n : ℕ}
    (hrel : Releases bits release n) (h : Balanced bits w (fun x => e x + one (some o) x))
    (hlast : refs w o + e o = 0) (hn : livingCount w ≤ n + 1) :
    (destroyMembers release o (List.finRange (arity o)).reverse).Ends (dying w o)
      (fun _ w' => Balanced bits w' e ∧ Cascade (fun _ => False) w w') fun _ => False := by
  have ho : w.alive o = true := h.alive_of_extra (by simp)
  have hless := livingCount_dying ho
  have hdead : (dying w o).alive o = false := update_self ..
  refine (ends_destroyMembers hrel (h.dying hlast) (List.nodup_reverse.mpr (List.nodup_finRange _))
    (fun i _ => h.members o i ho) hdead (by omega)).mono ?_ (fun _ hf => hf)
  rintro _ w' ⟨hbal, hmembers, hcascade⟩
  have hdead' := hcascade.dead hdead
  refine ⟨hbal, ?_, ?_, ?_⟩
  · intro x hx
    exact (alive_dying.mp (hcascade.alive_le x hx)).2
  · intro p
    rcases hcascade.frame p with hsame | ⟨i, -, rfl⟩ | ⟨x, i, rfl, hx, hgone⟩
    · exact Or.inl hsame
    · exact Or.inr (Or.inr ⟨o, i, rfl, ho, hdead'⟩)
    · exact Or.inr (Or.inr ⟨x, i, rfl, (alive_dying.mp hx).2, hgone⟩)
  · intro x hx hgone i
    rcases eq_or_ne x o with rfl | hxo
    · exact hmembers i (by simp)
    · exact hcascade.ended x (alive_dying.mpr ⟨hxo, hx⟩) hgone i

/-- CORRECT: a release gives up one reference, however deep the destructors nest. -/
theorem releases (bits depth : ℕ) :
    Releases bits (intrusivePtrRelease bits depth : O → Program R arity Unit) depth := by
  induction depth with
  | zero =>
    intro o e w h hn
    have ho : w.alive o = true := h.alive_of_extra (by simp)
    have hpos : 0 < livingCount w := Finset.card_pos.mpr ⟨o, Finset.mem_filter.mpr ⟨Finset.mem_univ o, ho⟩⟩
    omega
  | succ depth ih =>
    intro o e w h hn
    have ho : w.alive o = true := h.alive_of_extra (by simp)
    have hcount : w.count o = refs w o + (e o + 1) := by simpa using h.count_eq o ho
    have hroom := h.room o
    rw [one_some_self] at hroom
    have hleft : (w.count o + 2 ^ bits - 1) % 2 ^ bits = w.count o - 1 := by
      have hshift : w.count o + 2 ^ bits - 1 = (w.count o - 1) + 2 ^ bits := by omega
      rw [hshift, Nat.add_mod_right, Nat.mod_eq_of_lt (by omega)]
    have hdrop : (dropRef bits o : Program R arity ℕ) w = .ret (w.count o) { w with
        count := update w.count o (w.count o - 1)
        log := w.log ++ [.dropped o (w.count o - 1)] } := by
      rw [dropRef, if_pos ho]
      simp only [hleft]
    refine ends_bind ?_
    unfold EndsOr
    rw [hdrop]
    by_cases hlast : refs w o + e o = 0
    · have hone : w.count o = 1 := by omega
      simp only [hone, if_neg one_ne_zero, if_true]
      exact ends_destroyObject ih h hlast hn
    · simp only [if_neg (show w.count o ≠ 0 by omega), if_neg (show w.count o ≠ 1 by omega)]
      refine ⟨h.drop hlast, fun _ hx => hx, fun _ => Or.inl ⟨rfl, rfl⟩, ?_⟩
      intro x hx hgone
      rw [show w.alive x = false from hgone] at hx
      cases hx

end Metl.IntrusivePtr
