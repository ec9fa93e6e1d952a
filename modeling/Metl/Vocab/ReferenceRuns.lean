import Metl.Vocab.ReferenceCounts

/-! Whole programs of `intrusive_ptr`s.

    Every operation reads what it needs, moves references between pointers, detached references and
    local variables, and releases last. So it starts and ends with exact counts.

        retain, copy          count + 1,  one more pointer
        move, swap            the same references in other pointers
        detach, adopt         one pointer less and one detached reference more, and back
        assign, reset         one reference stored, one released -/

namespace Metl.IntrusivePtr

open Metl.Schemes Metl.Schemes.Prog Function

variable {R O : Type} {arity : O → ℕ} [DecidableEq O] [Fintype R] [Fintype O]
  {bits : ℕ} {w w' : World R arity} {o : O} {p q : Ptr R arity} {v : Option O} {r : R}

/-- Between two operations: every count is exact, and a destroyed object has no members. -/
structure Inv (bits : ℕ) (w : World R arity) : Prop where
  balanced : Balanced bits w fun _ => 0
  dead_members : ∀ o i, w.alive o = false → w.built (.inr ⟨o, i⟩) = false

/-- The object `v` refers to lives, and its count can be raised. -/
def Retainable (bits : ℕ) (w : World R arity) (v : Option O) : Prop :=
  ∀ o, v = some o → w.alive o = true ∧ w.count o + 1 < 2 ^ bits

omit [DecidableEq O] [Fintype R] [Fintype O] in
theorem retainable_of_all (hv : v.all (fun o => w.count o + 1 < 2 ^ bits) = true)
    (hlive : ∀ o, v = some o → w.alive o = true) : Retainable bits w v := by
  rintro o rfl
  exact ⟨hlive o rfl, by simpa using hv⟩

/-- A world after the count of what `v` refers to has been raised. -/
def raised (w : World R arity) (v : Option O) : World R arity :=
  { w with count := fun o => w.count o + one v o }

omit [Fintype R] [Fintype O] in
theorem addRefIf_eq (hv : Retainable bits w v) :
    (addRefIf bits v : Program R arity Unit) w = .ret () (raised w v) := by
  cases v with
  | none =>
    change Outcome.ret () w = _
    simp [raised]
  | some o =>
    obtain ⟨ho, hcount⟩ := hv o rfl
    change intrusivePtrAddRef bits o w = _
    rw [intrusivePtrAddRef, if_pos ho, Nat.mod_eq_of_lt hcount, raised]
    congr 2
    funext x
    by_cases hx : x = o
    · simp [hx]
    · simp [hx, one_some_of_ne hx]

omit [Fintype R] [Fintype O] in
theorem ends_addRefIf {S : Prop} {Q : Unit → World R arity → Prop} {T : World R arity → Prop}
    (hv : Retainable bits w v) (h : Q () (raised w v)) : (addRefIf bits v).EndsOr S w Q T := by
  unfold EndsOr
  rw [addRefIf_eq hv]
  exact h

/-- STEP: a count is raised for a local variable. -/
theorem Balanced.raise (h : Balanced bits w fun _ => 0) (hv : Retainable bits w v) :
    Balanced bits (raised w v) (fun o => 0 + one v o) := by
  have hone : ∀ o, one v o = 0 ∨ one v o = 1 ∧ w.alive o = true ∧ w.count o + 1 < 2 ^ bits := by
    intro o
    by_cases ho : v = some o
    · obtain ⟨halive, hcount⟩ := hv o ho
      exact Or.inr ⟨by simp [ho], halive, hcount⟩
    · exact Or.inl (by simp [one, ho])
  refine ⟨fun o ho => ?_, fun o ho => ?_, fun o => ?_, h.unbuilt, h.members, h.once, h.dead_iff,
    h.at_zero⟩
  · change w.count o + one v o = refs w o + _
    rw [h.count_eq o ho]
    omega
  · have hgone := h.gone o ho
    change refs w o + _ = 0
    rcases hone o with hzero | ⟨-, halive, -⟩
    · omega
    · rw [show w.alive o = false from ho] at halive
      cases halive
  · have hroom := h.room o
    change refs w o + _ < _
    rcases hone o with hzero | ⟨hone, halive, hcount⟩
    · omega
    · rw [h.count_eq o halive] at hcount
      omega

/-- No object is destroyed by an operation that releases nothing. -/
theorem Inv.still (h : Inv bits w) (hbal : Balanced bits w' fun _ => 0) (halive : w'.alive = w.alive)
    (hbuilt : ∀ o i, w'.built (.inr ⟨o, i⟩) = w.built (.inr ⟨o, i⟩)) : Inv bits w' where
  balanced := hbal
  dead_members o i ho := by
    rw [hbuilt]
    exact h.dead_members o i (halive ▸ ho)

/-- After the releases of an operation the destroyed objects have no members either. -/
theorem Inv.cascade (hdead : ∀ o i, w.alive o = false → w.built (.inr ⟨o, i⟩) = false)
    (hbal : Balanced bits w' fun _ => 0) (hcascade : Cascade (fun _ => False) w w') : Inv bits w' where
  balanced := hbal
  dead_members o i ho := by
    cases hlive : w.alive o with
    | true => exact hcascade.ended o hlive ho i
    | false =>
      have hsame := hcascade.same (p := .inr ⟨o, i⟩) (fun hf => hf)
        (fun o' i' heq => by cases heq; exact hlive)
      rw [hsame.2]
      exact hdead o i hlive

variable [DecidableEq R]

/-! ## Operations that release nothing -/

omit [Fintype R] [Fintype O] in
/-- The members of the objects are not affected by a root. -/
theorem member_built (w : World R arity) (r : R) (b : Bool) (o : O) (i : Fin (arity o)) :
    update w.built (.inl r) b (.inr ⟨o, i⟩) = w.built (.inr ⟨o, i⟩) :=
  update_of_ne Sum.inr_ne_inl ..

section

variable (h : Inv bits w)
include h

section

variable (hr : w.built (.inl r) = false)
include hr

theorem ends_construct : (build (.inl r) none).Ends w (fun _ w' => Inv bits w') fun _ => False := by
  have hnull : Balanced bits w (fun o => 0 + one none o) := h.balanced.congr (fun o => by simp)
  exact ends_build hr (h.still (hnull.build hr) rfl (member_built w r true))

/-- STEP: a new root retains what it refers to. The pointer is stored before the count is raised. -/
theorem ends_retain (hv : Retainable bits w v) :
    (do build (.inl r) v; addRefIf bits v : Program R arity Unit).Ends w (fun _ w' => Inv bits w')
      fun _ => False := by
  have hv' : Retainable bits { w with
      ptr := update w.ptr (.inl r) v
      built := update w.built (.inl r) true } v := hv
  refine ends_bind (ends_build hr (ends_addRefIf hv' ?_))
  have hbal := (h.balanced.raise hv).build (p := .inl r) hr
  exact h.still hbal rfl (member_built w r true)

theorem ends_adopt (hv : ∀ o, v = some o → 0 < w.detached o) :
    (do build (.inl r) v; takeBack v : Program R arity Unit).Ends w (fun _ w' => Inv bits w')
      fun _ => False := by
  refine ends_bind (ends_build hr ?_)
  -- the detached reference is the one the local variable holds
  have htaken : Balanced bits { w with detached := fun o => w.detached o - one v o }
      (fun o => 0 + one v o) := by
    refine h.balanced.transport (fun o => ?_) rfl rfl rfl h.balanced.unbuilt h.balanced.members
    have hle : one v o ≤ w.detached o := by
      by_cases ho : v = some o
      · have := hv o ho
        simp [ho]
        omega
      · simp [one, ho]
    change held w.ptr o + (w.detached o - one v o) + _ = held w.ptr o + w.detached o + 0
    omega
  exact h.still (htaken.build (p := .inl r) hr) rfl (member_built w r true)

theorem ends_copyConstruct (hq : w.built q = true) (hv : Retainable bits w (w.ptr q)) :
    (copyConstruct bits r q).Ends w (fun _ w' => Inv bits w') fun _ => False :=
  ends_bind (ends_get hq (ends_retain h hr hv))

theorem ends_moveConstruct (hq : w.built q = true) :
    (moveConstruct r q).Ends w (fun _ w' => Inv bits w') fun _ => False := by
  have hne : q ≠ .inl r := by
    rintro rfl
    rw [hr] at hq
    cases hq
  refine ends_bind (ends_get hq (ends_bind (ends_build hr (ends_store ?_ ?_))))
  · exact (update_of_ne hne ..).trans hq
  · -- the order of the two writes does not matter
    have hnull : Balanced bits w (fun o => 0 + one none o) := h.balanced.congr (fun o => by simp)
    have hbal : Balanced bits { w with
        ptr := update (update w.ptr q none) (.inl r) (w.ptr q)
        built := update w.built (.inl r) true } fun _ => 0 := (hnull.store hq).build hr
    rw [update_comm hne] at hbal
    exact h.still hbal rfl (member_built w r true)

end

theorem ends_detach (hp : w.built p = true) :
    (detach p).Ends w (fun _ w' => Inv bits w') fun _ => False := by
  refine ends_bind (ends_get hp (ends_bind (ends_store hp ?_)))
  have hnull : Balanced bits w (fun o => 0 + one none o) := h.balanced.congr (fun o => by simp)
  have hstored := hnull.store hp
  refine h.still (hstored.transport (fun o => ?_) rfl rfl rfl hstored.unbuilt hstored.members) rfl
    (fun _ _ => rfl)
  change held (update w.ptr p none) o + (w.detached o + one (w.ptr p) o) + 0 =
    held (update w.ptr p none) o + w.detached o + (0 + one (w.ptr p) o)
  omega

theorem ends_swap (hp : w.built p = true) (hq : w.built q = true) :
    (swap p q).Ends w (fun _ w' => Inv bits w') fun _ => False := by
  refine ends_bind (ends_get hp (ends_bind (ends_get hq (ends_bind (ends_store hp (ends_store hq ?_))))))
  refine h.still (h.balanced.transport (fun o => ?_) rfl rfl rfl (fun x hx => ?_) h.balanced.members)
    rfl (fun _ _ => rfl)
  · have hfirst := refs_store w p (w.ptr q) o
    have hsecond : refs { w with
          ptr := update (update w.ptr p (w.ptr q)) q (w.ptr p) } o +
        one (update w.ptr p (w.ptr q) q) o =
        refs { w with ptr := update w.ptr p (w.ptr q) } o + one (w.ptr p) o :=
      refs_store { w with ptr := update w.ptr p (w.ptr q) } q (w.ptr p) o
    have hmid : update w.ptr p (w.ptr q) q = w.ptr q := by
      by_cases hpq : q = p
      · rw [hpq, update_self]
      · rw [update_of_ne hpq]
    rw [hmid] at hsecond
    change refs { w with
      ptr := update (update w.ptr p (w.ptr q)) q (w.ptr p) } o + 0 = refs w o + 0
    omega
  · have hxp : x ≠ p := by
      rintro rfl
      rw [show w.built x = false from hx] at hp
      cases hp
    have hxq : x ≠ q := by
      rintro rfl
      rw [show w.built x = false from hx] at hq
      cases hq
    change update (update w.ptr p (w.ptr q)) q (w.ptr p) x = none
    rw [update_of_ne hxq, update_of_ne hxp]
    exact h.balanced.unbuilt x hx

end

/-! ## Operations that release -/

/-- STEP: `release_and_store` as the last thing an operation does. -/
theorem ends_storeLast (hdead : ∀ o i, w.alive o = false → w.built (.inr ⟨o, i⟩) = false)
    (h : Balanced bits w (fun o => 0 + one v o)) (hp : w.built p = true) :
    (releaseAndStore (intrusivePtrRelease bits (Fintype.card O)) p v).Ends w (fun _ w' => Inv bits w' ∧
        Cascade (fun _ => False) { w with ptr := update w.ptr p v } w') fun _ => False := by
  have hn : livingCount w ≤ Fintype.card O := Finset.card_le_univ _
  refine (ends_releaseAndStore (releases bits (Fintype.card O)) h hp hn).mono ?_ (fun _ hf => hf)
  rintro _ w' ⟨hbal, hcascade⟩
  exact ⟨Inv.cascade (w := { w with ptr := update w.ptr p v }) hdead hbal hcascade, hcascade⟩

section

variable (h : Inv bits w)
include h

section

variable (hp : w.built p = true)
include hp

theorem ends_copyAssign (hq : w.built q = true) (hv : p ≠ q → Retainable bits w (w.ptr q)) :
    (copyAssign bits (intrusivePtrRelease bits (Fintype.card O)) p q).Ends w
      (fun _ w' => Inv bits w') fun _ => False := by
  unfold copyAssign
  by_cases hpq : p = q
  · rw [if_pos hpq]
    exact ends_pure h
  · rw [if_neg hpq]
    refine ends_bind (ends_get hq (ends_bind (ends_addRefIf (hv hpq) ?_)))
    exact (ends_storeLast (w := raised w (w.ptr q)) h.dead_members (h.balanced.raise (hv hpq)) hp).mono
      (fun _ _ h => h.1) (fun _ hf => hf)

theorem ends_convertCopyAssign (hq : w.built q = true) (hv : Retainable bits w (w.ptr q)) :
    (convertCopyAssign bits (intrusivePtrRelease bits (Fintype.card O)) p q).Ends w
      (fun _ w' => Inv bits w') fun _ => False := by
  refine ends_bind (ends_get hq (ends_bind (ends_addRefIf hv ?_)))
  exact (ends_storeLast (w := raised w (w.ptr q)) h.dead_members (h.balanced.raise hv) hp).mono
    (fun _ _ h => h.1) (fun _ hf => hf)

theorem ends_convertMoveAssign (hq : w.built q = true) :
    (convertMoveAssign (intrusivePtrRelease bits (Fintype.card O)) p q).Ends w
      (fun _ w' => Inv bits w') fun _ => False := by
  refine ends_bind (ends_get hq (ends_bind (ends_store hq ?_)))
  have hnull : Balanced bits w (fun o => 0 + one none o) := h.balanced.congr (fun o => by simp)
  exact (ends_storeLast (w := { w with ptr := update w.ptr q none }) h.dead_members
    (hnull.store hq) hp).mono (fun _ _ h => h.1) (fun _ hf => hf)

theorem ends_moveAssign (hq : w.built q = true) :
    (moveAssign (intrusivePtrRelease bits (Fintype.card O)) p q).Ends w
      (fun _ w' => Inv bits w') fun _ => False := by
  unfold moveAssign
  by_cases hpq : p = q
  · rw [if_pos hpq]
    exact ends_pure h
  · rw [if_neg hpq]
    exact ends_convertMoveAssign h hp hq

theorem ends_reset :
    (reset (intrusivePtrRelease bits (Fintype.card O)) p).Ends w (fun _ w' => Inv bits w' ∧
        Cascade (fun _ => False) { w with ptr := update w.ptr p none } w') fun _ => False :=
  ends_storeLast h.dead_members (h.balanced.congr (fun o => by simp)) hp

end

theorem ends_destroy (hr : w.built (.inl r) = true) :
    (destroyPtr (intrusivePtrRelease bits (Fintype.card O)) (.inl r)).Ends w
      (fun _ w' => Inv bits w') fun _ => False := by
  refine ends_bind ((ends_reset h hr).mono ?_ (fun _ hf => hf))
  rintro _ w₁ ⟨hinv, hcascade⟩
  have hsame := hcascade.same (p := .inl r) (fun hf => hf) (fun o i heq => by cases heq)
  have hptr : w₁.ptr (.inl r) = none := hsame.1.trans (update_self ..)
  exact hinv.still (hinv.balanced.unbuild hptr (fun o i heq => by cases heq)) rfl
    (member_built w₁ r false)

end

/-! ## Runs -/

omit [DecidableEq R] in
theorem init_inv (bits : ℕ) : Inv bits (init : World R arity) where
  balanced :=
    { count_eq := fun o _ => by simp [init, refs, held]
      gone := fun o ho => by simp [init] at ho
      room := fun o => by
        simp only [init, refs, held, one_none, Finset.sum_const_zero, Nat.add_zero]
        exact Nat.two_pow_pos bits
      unbuilt := fun _ _ => rfl
      members := fun _ _ _ => rfl
      once := List.nodup_nil
      dead_iff := fun o => by simp [init, destroyed]
      at_zero := rfl }
  dead_members := fun o i ho => by simp [init] at ho

/-- STEP: every operation a program may perform returns, and leaves exact counts. -/
theorem exec_inv (h : Inv bits w) (a : Action R arity) (hvalid : valid w a = true)
    (hcount : countable bits w a = true) :
    (exec bits a).Ends w (fun _ w' => Inv bits w') fun _ => False := by
  have hlive : ∀ q o, w.ptr q = some o → w.alive o = true := fun q o hq => (h.balanced.target hq).2
  cases a with
  | construct r =>
    simp only [valid, Bool.not_eq_true'] at hvalid
    exact ends_construct h hvalid
  | retain r raw =>
    simp only [valid, Bool.and_eq_true, Bool.not_eq_true'] at hvalid
    refine ends_retain h hvalid.1 (retainable_of_all hcount ?_)
    rintro o rfl
    simpa using hvalid.2
  | adopt r raw =>
    simp only [valid, Bool.and_eq_true, Bool.not_eq_true'] at hvalid
    refine ends_adopt h hvalid.1 ?_
    rintro o rfl
    simpa using hvalid.2
  | copyConstruct r q =>
    simp only [valid, Bool.and_eq_true, Bool.not_eq_true'] at hvalid
    exact ends_copyConstruct h hvalid.1 hvalid.2 (retainable_of_all hcount (hlive q))
  | moveConstruct r q =>
    simp only [valid, Bool.and_eq_true, Bool.not_eq_true'] at hvalid
    exact ends_moveConstruct h hvalid.1 hvalid.2
  | copyAssign p q =>
    simp only [valid, Bool.and_eq_true] at hvalid
    refine ends_copyAssign h hvalid.1 hvalid.2 (fun hpq => retainable_of_all ?_ (hlive q))
    simpa [countable, retained, hpq] using hcount
  | moveAssign p q =>
    simp only [valid, Bool.and_eq_true] at hvalid
    exact ends_moveAssign h hvalid.1 hvalid.2
  | convertCopyAssign p q =>
    simp only [valid, Bool.and_eq_true] at hvalid
    exact ends_convertCopyAssign h hvalid.1 hvalid.2 (retainable_of_all hcount (hlive q))
  | convertMoveAssign p q =>
    simp only [valid, Bool.and_eq_true] at hvalid
    exact ends_convertMoveAssign h hvalid.1 hvalid.2
  | reset p => exact (ends_reset h hvalid).mono (fun _ _ h => h.1) (fun _ hf => hf)
  | detach p => exact ends_detach h hvalid
  | swap p q =>
    simp only [valid, Bool.and_eq_true] at hvalid
    exact ends_swap h hvalid.1 hvalid.2
  | destroy r => exact ends_destroy h hvalid

theorem step_inv {a : Action R arity} (h : Inv bits w) (hstep : stepCountable bits w a = some w') :
    Inv bits w' := by
  unfold stepCountable step at hstep
  split at hstep
  · next hcount =>
    split at hstep
    · next hvalid =>
      obtain ⟨_, w₁, hexec, hinv⟩ := (exec_inv h a hvalid hcount).returns
      rw [hexec] at hstep
      exact Option.some.inj hstep ▸ hinv
    · cases hstep
  · cases hstep

/-- What a program may rely on between two operations. -/
structure Contract (bits : ℕ) (w : World R arity) : Prop where
  -- a count is the number of pointers and detached references
  counts : ∀ o, w.alive o = true → w.count o = held w.ptr o + w.detached o
  targets : ∀ p o, w.ptr p = some o → w.built p = true ∧ w.alive o = true
  -- destroyed once, and exactly when a release dropped the count to zero
  once : (destroyed w.log).Nodup
  dead_iff : ∀ o, w.alive o = false ↔ o ∈ destroyed w.log
  at_zero : destroyed w.log = droppedToZero w.log
  -- the members of an object live as long as it does
  members : ∀ o i, w.built (.inr ⟨o, i⟩) = w.alive o
  -- the next operation returns: no check fails, nothing destroyed is touched, every cascade ends
  returns : ∀ a, valid w a = true → countable bits w a = true → ∃ w', exec bits a w = .ret () w'

theorem Inv.contract (h : Inv bits w) : Contract bits w where
  counts o ho := h.balanced.count_eq o ho
  targets _ _ hp := h.balanced.target hp
  once := h.balanced.once
  dead_iff := h.balanced.dead_iff
  at_zero := h.balanced.at_zero
  members o i := by
    cases ho : w.alive o with
    | true => exact h.balanced.members o i ho
    | false => exact h.dead_members o i ho
  returns a hvalid hcount := by
    obtain ⟨_, w', hexec, -⟩ := (exec_inv h a hvalid hcount).returns
    exact ⟨w', hexec⟩

/-- CORRECT: in every run in which no count is raised from its largest value, counts are exact and
    every object is destroyed once, by the release of its last reference. -/
theorem counts_exact (bits : ℕ) (acts : List (Action R arity)) (w : World R arity)
    (hrun : run (stepCountable bits) init acts = some w) : Contract bits w :=
  (run_inv (fun _ _ _ => step_inv) acts init w (init_inv bits) hrun).contract

local instance neZero_two : NeZero 2 := ⟨by decide⟩

local instance neZero_one : NeZero 1 := ⟨by decide⟩

/-- `p = p->next` on a list of two: the head is destroyed, the second is not. -/
def walkList : List (Action (Fin 2) (fun _ : Fin 2 => 1)) :=
  [.retain 0 (some 0), .retain 1 (some 1), .moveAssign (.inr ⟨0, 0⟩) (.inl 1),
    .copyAssign (.inl 0) (.inr ⟨0, 0⟩)]

theorem counts_exact_sample : ∃ w, run (stepCountable 32) init walkList = some w ∧
    w.ptr (.inl 0) = some 1 ∧ destroyed w.log = [0] ∧ Contract 32 w := by
  have houtcome : (run (stepCountable 32) init walkList).map
      (fun w => (w.ptr (.inl 0), destroyed w.log)) = some (some 1, [0]) := by
    decide +kernel
  obtain ⟨w, hrun, hw⟩ := Option.map_eq_some_iff.mp houtcome
  obtain ⟨hptr, hlog⟩ := Prod.mk.inj hw
  exact ⟨w, hrun, hptr, hlog, counts_exact 32 walkList w hrun⟩

/-! ## A count that wraps -/

/-- `n` references are taken and detached, none of them ever adopted. -/
def leak : ℕ → List (Action Unit (fun _ : Unit => 0))
  | 0 => []
  | n + 1 => leak n ++ [.retain () (some ()), .detach (.inl ()), .destroy ()]

/-- One reference leaked, from a world in which the only root does not exist. -/
theorem run_leak_one {w : World Unit (fun _ : Unit => 0)} (halive : w.alive () = true)
    (hbuilt : w.built (.inl ()) = false) :
    ∃ w', run (step bits) w [.retain () (some ()), .detach (.inl ()), .destroy ()] = some w' ∧
      w'.alive () = true ∧ w'.built (.inl ()) = false ∧
      w'.count () = (w.count () + 1) % 2 ^ bits ∧ w'.detached () = w.detached () + 1 := by
  refine ⟨_, by
    simp [run, step, valid, exec, halive, hbuilt, build, addRefIf, intrusivePtrAddRef, detach, get, store,
      handOut, Prog.modify, destroyPtr, reset, releaseAndStore, unbuild, Bind.bind, Prog.bind, pure,
      Prog.pure]; rfl, ?_⟩
  simp [halive]

theorem run_leak (bits n : ℕ) : ∃ w, run (step bits) init (leak n) = some w ∧ w.alive () = true ∧
    w.built (.inl ()) = false ∧ w.count () = n % 2 ^ bits ∧ w.detached () = n := by
  induction n with
  | zero => exact ⟨init, rfl, rfl, rfl, (Nat.zero_mod _).symm, rfl⟩
  | succ n ih =>
    obtain ⟨w, hrun, halive, hbuilt, hcount, hdetached⟩ := ih
    obtain ⟨w', hstep, halive', hbuilt', hcount', hdetached'⟩ := run_leak_one halive hbuilt
    refine ⟨w', ?_, halive', hbuilt', ?_, by rw [hdetached', hdetached]⟩
    · rw [leak, run_append, hrun]
      exact hstep
    · rw [hcount', hcount, Nat.mod_add_mod]

/-- A 32-bit count is zero again after 2 ^ 32 references, all of them still outstanding. -/
theorem count_wraps : ∃ w, run (step 32) init (leak (2 ^ 32)) = some w ∧ w.alive () = true ∧
    w.count () ≠ held w.ptr () + w.detached () := by
  obtain ⟨w, hrun, halive, -, hcount, hdetached⟩ := run_leak 32 (2 ^ 32)
  refine ⟨w, hrun, halive, ?_⟩
  rw [hcount, hdetached, Nat.mod_self]
  have hpos := Nat.two_pow_pos 32
  omega

end Metl.IntrusivePtr
