import Metl.Vocab.ExpectedContents
import Metl.Schemes.Run

/-! Programs over a family of expecteds.

    Without exceptions the contents follow the abstract operations, aliased arguments included, and the
    ledger of union objects balances. With exceptions the alternatives survive, exactly unless a move
    back threw. -/

namespace Metl.Expected

open Metl.Schemes Metl.Schemes.Prog Function

variable {I V W : Type} {T : Types V W} {σ : Abs I V W} {script : List (Option (Damage V W))}
  {w w' : World I V W}

theorem Exits.congr {p q : Prop} (h : Exits σ p script w) (hpq : p ↔ q) : Exits σ q script w :=
  propext hpq ▸ h

theorem valid_iff (h : At (settled σ) w) (op : Op I V W) :
    (op.valid T fun i => (w.slot i).isSome) = op.valid T fun i => (σ i).isSome := by
  have hthere : (fun i => (w.slot i).isSome) = fun i => (σ i).isSome := by
    funext i
    have hi := congrArg Option.isSome (congrFun h.shape_eq i)
    simpa [shape, settled] using hi
  rw [hthere]

variable [DecidableEq I]

/-- The contents the arguments give from the contents before the call, with what is left behind. -/
def Arg.result {C : Type} (mk : C → Member V W) (σ : Abs I V W) :
    Arg I V W C → Option (Member V W) × Abs I V W
  | .const c => (some (mk c), σ)
  | .member j fromValue fromError =>
    match σ j with
    | none => (none, σ)
    | some m =>
      (some (applyArg mk fromValue fromError m).1,
        update σ j (some (applyArg mk fromValue fromError m).2))

/-- An expected holds what its arguments gave. -/
def store (σ : Option (Member V W) × Abs I V W) (i : I) : Abs I V W := update σ.2 i σ.1

/-- What an operation denotes, computed from the contents before it. -/
def next (T : Types V W) (σ : Abs I V W) : Op I V W → Abs I V W
  | .create i m => update σ i (some m)
  | .copyAssign i j => update σ i (σ j)
  | .moveAssign i j =>
    if i = j then σ
    else update (update σ j ((σ j).map T.moved)) i (σ j)
  | .assignValue i value => store (value.result .value σ) i
  | .assignError i error => store (error.result .error σ) i
  | .emplace i args => store (args.result .value σ) i
  | .emplaceError i args => store (args.result .error σ) i
  | .swap i j => update (update σ i (σ j)) j (σ i)
  | .destroy i => update σ i none

/-- The operation puts a `k` in the place of the member of `i`, and two moves throw in it. -/
def RebuildThrows (T : Types V W) (σ : Abs I V W) (i : I) (k : Kind) (nothrow : Bool)
    (script : List (Option (Damage V W))) : Prop :=
  ∃ m, σ i = some m ∧ DoubleThrow T nothrow m.kind k script

/-- The same, for an operation that only assigns to a member which is a `k` already. -/
def RebindThrows (T : Types V W) (σ : Abs I V W) (i : I) (k : Kind) (nothrow : Bool)
    (script : List (Option (Damage V W))) : Prop :=
  ∃ m, σ i = some m ∧ m.kind ≠ k ∧ DoubleThrow T nothrow m.kind k script

/-- The operation replaces a member, and two moves throw in it: the one that puts the new member in
    place and the one that moves the old one back. -/
def RollbackThrows (T : Types V W) (σ : Abs I V W) (script : List (Option (Damage V W))) : Op I V W → Prop
  | .copyAssign i j => ∃ n, σ j = some n ∧ RebindThrows T σ i n.kind false script
  | .moveAssign i j => ∃ n, σ j = some n ∧ RebindThrows T σ i n.kind (T.nothrowMove n.kind) script
  | .assignValue i _ => RebindThrows T σ i .value false script
  | .assignError i _ => RebindThrows T σ i .error false script
  | .emplace i _ => RebuildThrows T σ i .value false script
  | .emplaceError i _ => RebuildThrows T σ i .error false script
  | _ => False

variable {C : Type} {mk : C → Member V W} {arg : Arg I V W C} {k : Kind} {i j : I}

section

variable (h : Is (settled σ) script w)
include h

theorem ends_bindArg {Q : Ref I V W → World I V W → Prop} {R : World I V W → Prop}
    (hvalid : (arg.valid fun i => (σ i).isSome) = true) (hmk : ∀ c, (mk c).kind = k)
    (hret : ∀ r : Ref I V W, r.Bound σ w k → r.result σ = arg.result mk σ → Q r w) :
    (arg.bind mk).Ends w Q R := by
  cases arg with
  | const c => exact hret _ (hmk c) rfl
  | member j fromValue fromError =>
    obtain ⟨m, hm⟩ := Option.isSome_iff_exists.mp hvalid
    have hfocus := h.toAt
    rw [settled_focus hm] at hfocus
    obtain ⟨id, hslot, hid⟩ := hfocus.slot_some
    unfold Ends EndsOr Arg.bind
    simp only [hslot]
    refine hret _ ⟨hid, ?_, m, hm, ?_⟩ ?_
    · intro m'
      cases m' <;> rfl
    · cases m <;> exact hmk _
    · simp only [Ref.result, Arg.result, hm]

section

variable (hi : (σ i).isSome = true)
include hi

/-- `x = value` and `x = unexpected(error)`. -/
theorem ends_assignArg (hvalid : (arg.valid fun i => (σ i).isSome) = true) (hmk : ∀ c, (mk c).kind = k) :
    (do
      let r ← arg.bind mk
      assignOrRebind T i k false r : Prog (World I V W) Unit).Ends w
      (fun _ w' => At (settled (store (arg.result mk σ) i)) w')
      fun w' => Exits σ (RebindThrows T σ i k false script) script w' := by
  obtain ⟨m, hi⟩ := Option.isSome_iff_exists.mp hi
  refine ends_bind (ends_bindArg h hvalid hmk fun r hb hresult => ?_)
  refine ends_assignOrRebind h hb hi (fun w' σ' m' hr h' => ?_) fun w' h' => ?_
  · rw [← hresult, hr]
    exact h'
  · exact h'.congr (by simp [RebindThrows, hi])

/-- `x.emplace(args)` and `x.emplace_error(args)`. -/
theorem ends_emplaceArg (hvalid : (arg.valid fun i => (σ i).isSome) = true) (hmk : ∀ c, (mk c).kind = k) :
    (do
      let r ← arg.bind mk
      emplaceAs T i k r : Prog (World I V W) Unit).Ends w
      (fun _ w' => At (settled (store (arg.result mk σ) i)) w')
      fun w' => Exits σ (RebuildThrows T σ i k false script) script w' := by
  obtain ⟨m, hi⟩ := Option.isSome_iff_exists.mp hi
  refine ends_bind (ends_bindArg h hvalid hmk fun r hb hresult => ?_)
  refine ends_emplaceAs h hb hi (fun w' σ' m' hr h' => ?_) fun w' h' => ?_
  · rw [← hresult, hr]
    exact h'
  · exact h'.congr (by simp [RebuildThrows, hi])

theorem ends_copyAssign (hj : (σ j).isSome = true) : (assignFrom T i j (fun _ => false) fun m => m).Ends w
      (fun _ w' => At (settled (next T σ (.copyAssign i j))) w')
      fun w' => Exits σ (RollbackThrows T σ script (.copyAssign i j)) script w' := by
  obtain ⟨m, hi⟩ := Option.isSome_iff_exists.mp hi
  obtain ⟨n, hj⟩ := Option.isSome_iff_exists.mp hj
  refine ends_assignFrom h hi hj (fun m => rfl) (fun hij => ?_) (fun w' _ h' => ?_) fun w' h' => ?_
  · subst hij
    rw [next, update_eq_self]
    exact h.toAt
  · rw [← hj, update_eq_self] at h'
    exact h'
  · exact h'.congr (by simp [RollbackThrows, RebindThrows, hi, hj])

theorem ends_moveAssign (hj : (σ j).isSome = true) : (assignFrom T i j T.nothrowMove T.moved).Ends w
      (fun _ w' => At (settled (next T σ (.moveAssign i j))) w')
      fun w' => Exits σ (RollbackThrows T σ script (.moveAssign i j)) script w' := by
  obtain ⟨m, hi⟩ := Option.isSome_iff_exists.mp hi
  obtain ⟨n, hj⟩ := Option.isSome_iff_exists.mp hj
  refine ends_assignFrom h hi hj T.moved_kind (fun hij => ?_) (fun w' hij h' => ?_) fun w' h' => ?_
  · rw [next, if_pos hij]
    exact h.toAt
  · rw [next, if_neg hij, hj]
    exact h'
  · exact h'.congr (by simp [RollbackThrows, RebindThrows, hi, hj])

end

end

/-- STEP: every operation ends as it denotes, or by an exception that loses nothing unless a move back
    throws. -/
theorem ends_exec (op : Op I V W) (h : Is (settled σ) script w)
    (hvalid : (op.valid T fun i => (σ i).isSome) = true) :
    (exec T op).Ends w (fun _ w' => At (settled (next T σ op)) w')
      fun w' => Exits σ (RollbackThrows T σ script op) script w' := by
  cases op with
  | create i m =>
    have hi : σ i = none := by simpa [Op.valid] using hvalid
    exact ends_create h hi (fun w' h' => h') fun w' h' => h'
  | copyAssign i j =>
    obtain ⟨hi, hj⟩ := (Bool.and_eq_true _ _).mp hvalid
    exact ends_copyAssign h hi hj
  | moveAssign i j =>
    obtain ⟨hi, hj⟩ := (Bool.and_eq_true _ _).mp hvalid
    exact ends_moveAssign h hi hj
  | assignValue i value =>
    obtain ⟨hi, hvalue⟩ := (Bool.and_eq_true _ _).mp hvalid
    exact ends_assignArg h hi hvalue fun _ => rfl
  | assignError i error =>
    obtain ⟨hi, herror⟩ := (Bool.and_eq_true _ _).mp hvalid
    exact ends_assignArg h hi herror fun _ => rfl
  | emplace i args =>
    obtain ⟨hi, hargs⟩ := (Bool.and_eq_true _ _).mp hvalid
    exact ends_emplaceArg h hi hargs fun _ => rfl
  | emplaceError i args =>
    obtain ⟨hi, hargs⟩ := (Bool.and_eq_true _ _).mp hvalid
    exact ends_emplaceArg h hi hargs fun _ => rfl
  | swap i j =>
    simp only [Op.valid, Bool.and_eq_true, Option.isSome_iff_exists] at hvalid
    obtain ⟨⟨⟨m, hi⟩, n, hj⟩, hmove⟩ := hvalid
    refine ends_swap h hi hj hmove (fun w' h' => ?_) fun w' h' => h'
    rw [next, hi, hj]
    exact h'
  | destroy i =>
    obtain ⟨m, hi⟩ := Option.isSome_iff_exists.mp hvalid
    exact ends_destroy h hi fun w' h' => h'

/-! ### Without exceptions -/

/-- The contract of a program's expecteds, when its operations so far denote `σ`. -/
structure Contract (T : Types V W) (w : World I V W) (σ : Abs I V W) : Prop where
  -- contents and discriminants; the ledger; what destructors could read
  stands : At (settled σ) w
  operates : ∀ op : Op I V W, (op.valid T fun i => (σ i).isSome) = true →
    ∃ w', exec T op { w with script := [] } = .ret () w' ∧ At (settled (next T σ op)) w'
  destroyed_once : (∀ i, σ i = none) → (w.destroyed.map Prod.fst).Perm (List.range w.built)

theorem exec_returns (op : Op I V W) (h : At (settled σ) w)
    (hvalid : (op.valid T fun i => (σ i).isSome) = true) :
    ∃ w', exec T op { w with script := [] } = .ret () w' ∧ At (settled (next T σ op)) w' := by
  have hends : (exec T op).Ends { w with script := [] } (fun _ w' => At (settled (next T σ op)) w')
      fun _ => False :=
    (ends_exec op (h.withScript []) hvalid).mono (fun _ _ h' => h') fun w' hexit => hexit.1 rfl
  obtain ⟨_, w', hret, hat⟩ := hends.returns
  exact ⟨w', hret, hat⟩

/-- RUN: without exceptions the contents are those the operations denote. -/
theorem run_at {ops : List (Op I V W)} (h : At (settled σ) w)
    (hrun : run (step T) w (ops.map fun op => ⟨op, []⟩) = some w') :
    At (settled (ops.foldl (next T) σ)) w' := by
  induction ops generalizing w σ with
  | nil =>
    rw [List.map_nil, run_nil, Option.some.injEq] at hrun
    exact hrun ▸ h
  | cons op ops ih =>
    obtain ⟨w₁, hstep, hrest⟩ := run_cons_some.mp hrun
    refine ih ?_ hrest
    rw [step] at hstep
    split at hstep
    · rename_i hvalid
      obtain ⟨w₂, hret, hat⟩ := exec_returns (T := T) op h (by rw [← valid_iff h]; exact hvalid)
      rw [hret, Option.some.injEq] at hstep
      exact hstep ▸ hat
    · cases hstep

/-- CORRECT: every program without exceptions computes each result from the contents before the call,
    and destroys every member once, under a discriminant that names none. -/
theorem contents_follow (T : Types V W) (ops : List (Op I V W)) (w : World I V W)
    (hrun : run (step T) init (ops.map fun op => ⟨op, []⟩) = some w) :
    Contract T w (ops.foldl (next T) fun _ => none) := by
  have hat := run_at init_at hrun
  refine ⟨hat, fun op => exec_returns op hat, fun hnone => hat.ledger.perm_range fun i => ?_⟩
  simp [idAt, hat.slot_gone (i := i) (by simp [settled, hnone i])]

/-- Moves of values may throw; a moved-from member holds 0. -/
def sampleTypes : Types ℕ ℕ where
  nothrowMove := fun k => k == .error
  noExceptions := false
  movedValue := fun _ => 0
  movedError := fun _ => 0

local instance neZero_two : NeZero 2 := ⟨by decide⟩

/-- A value replaced by one made from itself, an error turned into a value made from it, a swap across
    the kinds, and the end of both. -/
def sampleOps : List (Op (Fin 2) ℕ ℕ) :=
  [.create 0 (.value 3), .create 1 (.error 7),
    .emplace 0 (.member 0 (fun v => (v + 1, v)) fun e => (e, e)),
    .assignError 0 (.member 0 (fun v => (v + 10, 0)) fun e => (e, e)), .moveAssign 0 1,
    .assignValue 0 (.member 0 (fun v => (v, v)) fun e => (e + 1, 0)), .swap 0 1, .destroy 0, .destroy 1]

theorem contents_follow_sample : ∃ w, run (step sampleTypes) init
      (sampleOps.map fun op => ⟨op, []⟩) = some w ∧
    w.destroyed.map Prod.fst = [0, 2, 3, 1, 4, 6, 5] ∧
    Contract sampleTypes w (sampleOps.foldl (next sampleTypes) fun _ => none) := by
  have houtcome : (run (step sampleTypes) init (sampleOps.map fun op => ⟨op, []⟩)).map
      (fun w => w.destroyed.map Prod.fst) = some [0, 2, 3, 1, 4, 6, 5] := by
    decide +kernel
  obtain ⟨w, hrun, hw⟩ := Option.map_eq_some_iff.mp houtcome
  exact ⟨w, hrun, hw, contents_follow sampleTypes sampleOps w hrun⟩

/-! ### With exceptions -/

/-- What the program must find after an exception: the alternatives of before, each alive and named by
    its discriminant, and destructors that destroy one object each. -/
structure Intact (T : Types V W) (σ : Abs I V W) (w : World I V W) : Prop where
  kept : Kept σ w
  destructible : ∀ i, σ i ≠ none → ∃ w' id, exec T (.destroy i) w = .ret () w' ∧
    w'.destroyed = w.destroyed ++ [(id, .switching)]

theorem destroy_eq {id : ℕ} {m : Member V W} (hslot : w.slot i = some ⟨m.kind.state, some ⟨id, m⟩⟩) :
    destroy i w = .ret ()
      { w with
        slot := update w.slot i none
        destroyed := w.destroyed ++ [(id, .switching)] } := by
  cases m <;> simp [destroy, requireSettled, slotOf, setState, destroyMember, Prog.modify, hslot, bind,
      Prog.bind, pure, Prog.pure, Member.kind, Kind.state]

theorem Kept.intact (h : Kept σ w) : Intact T σ w where
  kept := h
  destructible := fun i hi => by
    obtain ⟨σ', hkinds, hat⟩ := h
    obtain ⟨m, hm⟩ := Option.ne_none_iff_exists'.mp hi
    obtain ⟨m', hm', -⟩ := hkinds.held hm
    rw [settled_focus hm'] at hat
    obtain ⟨id, hslot, -⟩ := hat.slot_some
    exact ⟨_, id, destroy_eq hslot, rfl⟩

/-- CORRECT: an operation that exits by an exception leaves every expected intact, exactly unless the
    move that put the new member in place and the move back both threw. -/
theorem exception_keeps_contents (T : Types V W) (σ : Abs I V W) (w : World I V W)
    (hw : At (settled σ) w) (op : Op I V W) (hvalid : (op.valid T fun i => (σ i).isSome) = true)
    (script : List (Option (Damage V W))) (w' : World I V W)
    (hthrow : exec T op { w with script := script } = .thrown w') :
    Intact T σ w' ↔ ¬ RollbackThrows T σ script op := by
  obtain ⟨-, hexit⟩ := (ends_exec op (hw.withScript script) hvalid).thrown hthrow
  rcases hexit with ⟨hno, hkept⟩ | ⟨hroll, hlost⟩
  · exact iff_of_true hkept.intact hno
  · exact iff_of_false (fun hintact => hintact.kept.not_lost hlost) (not_not.mpr hroll)

/-- Neither type moves without throwing; a call that throws changes nothing. -/
def throwingTypes : Types ℕ ℕ where
  nothrowMove := fun _ => false
  noExceptions := false
  movedValue := fun _ => 0
  movedError := fun _ => 0

def unharmed : Damage ℕ ℕ := ⟨fun v => v, fun e => e⟩

/-- An expected that holds the value 3. -/
def holdingThree : World (Fin 1) ℕ ℕ := ⟨fun _ => some ⟨.value, some ⟨0, .value 3⟩⟩, 1, [], []⟩

theorem holdingThree_at : At (settled fun _ => some (.value 3)) holdingThree where
  shape_eq := rfl
  ledger := by
    have hledger := (Ledger.init (P := Fin 1)).build (p := 0) rfl
    have hids : idAt holdingThree = update (fun _ => none) 0 (some 0) := by
      funext i
      obtain rfl := Subsingleton.elim i 0
      rfl
    rw [hids]
    exact hledger
  seen := by simp [holdingThree]

theorem exception_keeps_contents_sample : ∃ w',
    exec throwingTypes (.emplace 0 (.const 5))
      { holdingThree with script := [none, none, some unharmed] } = .thrown w' ∧
    Intact throwingTypes (fun _ => some (.value 3)) w' := by
  refine ⟨_, rfl, (exception_keeps_contents throwingTypes _ holdingThree holdingThree_at
    (.emplace 0 (.const 5)) rfl [none, none, some unharmed] _ rfl).mpr ?_⟩
  rintro ⟨m, -, -, -, -, hback⟩
  simp [rest, throwingTypes] at hback

/-- The move of the new value throws, and so does the move back: the expected is left switching, its
    value destroyed, and its destructor stops. -/
theorem rollback_throw_loses_contents :
    At (settled fun _ => some (.value 3)) holdingThree ∧
    ∃ w', exec throwingTypes (.emplace 0 (.const 5))
        { holdingThree with script := [none, none, some unharmed, some unharmed] } = .thrown w' ∧
      w'.slot 0 = some ⟨.switching, none⟩ ∧
      exec throwingTypes (.destroy 0) w' = .stopped :=
  ⟨holdingThree_at, _, rfl, rfl, rfl⟩

end Metl.Expected
