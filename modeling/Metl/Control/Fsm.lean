import Metl.Schemes.Run

/-! The table-driven state machine of `fsm.hpp`, with callbacks that dispatch again and throw.

        dispatch   exit hook ─► commit ─► action ─► entry hook
                   (entered_)             └─ dispatch …  └─ dispatch …

    An action or an entry hook may dispatch again before it returns, so `dispatch` is cut at its three
    callbacks and its activations form a stack, innermost first. An action may throw: its activation
    is gone, and the callback that made the call goes on or throws in turn.

    The points where `dispatch` runs the hook step of a state, whether or not the table has a hook for
    it, are the events of a trace. The visits of the machine to its states are numbered by the
    transitions committed before; visit 0 is the initial state. -/

namespace Metl.Fsm
open Metl.Schemes

/-! ### The machine -/

/-- `fsm_transition`: from `source` to `target`. Whether the delegate `action` is bound is all that
    `dispatch` knows of it. -/
structure Transition (S E : Type) where
  source : S
  event : E
  target : S
  action : Bool

/-- `fsm_state_hook`, likewise. -/
structure Hook (S : Type) where
  state : S
  handler : Bool

structure Table (S E : Type) where
  transitions : List (Transition S E)
  entryHooks : List (Hook S)
  exitHooks : List (Hook S)

/-- An activation of `dispatch`, by the callback it waits for. -/
inductive Frame (S E : Type) where
  | exiting (t : Transition S E)
  /-- The action runs, with the arguments `t.source`, `t.event`, `t.target`. -/
  | acting (t : Transition S E)
  | entering (state : S)

/-- A hook step of `dispatch`: the state it is for, the visit, and for an entry the current state. -/
inductive Ev (S : Type) where
  | exit (s : S) (visit : ℕ)
  | enter (s now : S) (visit : ℕ)
  deriving DecidableEq

structure World (S E : Type) where
  current : S
  entered : Bool
  exiting : Bool
  stack : List (Frame S E)
  /-- Ghost: the targets committed so far, and the hook steps. -/
  commits : List S
  trace : List (Ev S)
  /-- Ghost: what the last outermost `dispatch` returned, if it did, and whether an action has thrown
      since it was called. -/
  last : Option Bool
  thrown : Bool

variable {S E : Type} [DecidableEq S] [DecidableEq E]

def init (initial : S) : World S E where
  current := initial
  entered := true
  exiting := false
  stack := []
  commits := []
  trace := []
  last := none
  thrown := false

def findTransition (c : Table S E) (state : S) (event : E) : Option (Transition S E) :=
  c.transitions.find? fun t => t.source == state && t.event == event

/-- Whether `invoke_hook` finds a handler to call. -/
def invokeHook (hooks : List (Hook S)) (state : S) : Bool :=
  hooks.any fun h => h.state == state && h.handler

/-- `dispatch` returns true. -/
def returnTrue (w : World S E) : World S E :=
  if w.stack.isEmpty then { w with last := some true } else w

/-- `dispatch` after its action. -/
def afterAction (c : Table S E) (w : World S E) (t : Transition S E) : World S E :=
  if w.entered = false ∧ w.current = t.target then
    let w :=
      { w with
        entered := true
        trace := w.trace ++ [.enter t.target w.current w.commits.length] }
    if invokeHook c.entryHooks t.target then { w with stack := .entering t.target :: w.stack }
    else returnTrue w
  else returnTrue w

/-- `dispatch` after its exit hook. -/
def commit (c : Table S E) (w : World S E) (t : Transition S E) : World S E :=
  let w :=
    { w with current := t.target, entered := false, commits := w.commits ++ [t.target] }
  if t.action then { w with stack := .acting t :: w.stack } else afterAction c w t

/-- A call of `dispatch`, up to its first callback. -/
def dispatch (c : Table S E) (w : World S E) (event : E) : World S E :=
  match findTransition c w.current event with
  | none => if w.stack.isEmpty then { w with last := some false, thrown := false } else w
  | some t =>
    let w := if w.stack.isEmpty then { w with last := none, thrown := false } else w
    if w.entered then
      let w := { w with trace := w.trace ++ [.exit w.current w.commits.length] }
      if invokeHook c.exitHooks w.current then
        { w with exiting := true, stack := .exiting t :: w.stack }
      else commit c w t
    else commit c w t

inductive Act (E : Type) where
  /-- The caller, or the running action or entry hook, calls `dispatch`. -/
  | dispatch (event : E)
  /-- The running callback returns. -/
  | ret
  /-- The running action throws, or lets an exception pass that a `dispatch` of its own has thrown. -/
  | throw

/-- One step. A `dispatch` from an exit hook stops at its `METL_ASSERT`, and an exception that leaves
    a hook ends the program. -/
def step (c : Table S E) (w : World S E) : Act E → Option (World S E)
  | .dispatch event => if w.exiting then none else some (dispatch c w event)
  | .ret =>
    match w.stack with
    | .exiting t :: rest => some (commit c { w with exiting := false, stack := rest } t)
    | .acting t :: rest => some (afterAction c { w with stack := rest } t)
    | .entering _ :: rest => some (returnTrue { w with stack := rest })
    | [] => none
  | .throw =>
    match w.stack with
    | .acting _ :: rest => some { w with stack := rest, thrown := true, last := none }
    | _ => none

/-! ### Balanced traces -/

/-- A trace of hook steps: exits and entries take turns, starting with an exit of `start`, and an
    exit is of what was entered last. The flag says whether the machine rests in the visit, which it
    has entered, or has left it. -/
inductive Balanced (start : S × ℕ) : List (Ev S) → Bool → S × ℕ → Prop
  | start : Balanced start [] true start
  | exit {trace : List (Ev S)} {s : S} {k : ℕ} (h : Balanced start trace true (s, k)) :
      Balanced start (trace ++ [.exit s k]) false (s, k)
  | enter {trace : List (Ev S)} {q : S × ℕ} (s : S) {k : ℕ} (h : Balanced start trace false q)
      (hlater : q.2 < k) : Balanced start (trace ++ [.enter s s k]) true (s, k)

section Balanced
variable {start q : S × ℕ} {trace : List (Ev S)} {rests : Bool}

omit [DecidableEq S]

/-- The trace ends with the entry of the visit it rests in. -/
theorem Balanced.last (h : Balanced start trace true q) :
    trace = [] ∧ q = start ∨ trace.getLast? = some (.enter q.1 q.1 q.2) := by
  cases h with
  | start => exact Or.inl ⟨rfl, rfl⟩
  | enter s h hlater => exact Or.inr (by simp)

/-- Every visit that the trace has left, or rests in, was entered or is the first. -/
theorem Balanced.entered (h : Balanced start trace rests q) : (q = start ∨ .enter q.1 q.1 q.2 ∈ trace) ∧
      ∀ s k, .exit s k ∈ trace → (s, k) = start ∨ .enter s s k ∈ trace := by
  induction h with
  | start => simp
  | @exit trace s k h ih =>
    obtain ⟨hvisit, hexits⟩ := ih
    refine ⟨?_, ?_⟩
    · simpa using hvisit
    · intro s' k' hmem
      simp only [List.mem_append, List.mem_singleton, Ev.exit.injEq, reduceCtorEq, or_false] at hmem ⊢
      rcases hmem with hmem | ⟨rfl, rfl⟩
      · exact hexits s' k' hmem
      · exact hvisit
  | @enter trace q s k h hlater ih =>
    refine ⟨Or.inr (by simp), ?_⟩
    intro s' k' hmem
    simp only [List.mem_append, List.mem_singleton, reduceCtorEq, or_false] at hmem
    rcases ih.2 s' k' hmem with hstart | hold
    · exact Or.inl hstart
    · exact Or.inr (List.mem_append_left _ hold)

/-- An entry is of the state that is current. -/
theorem Balanced.now (h : Balanced start trace rests q) :
    ∀ s now k, .enter s now k ∈ trace → now = s := by
  induction h with
  | start => simp
  | exit h ih => simpa using ih
  | enter s h hlater ih =>
    intro s' now k' hmem
    simp only [List.mem_append, List.mem_singleton, Ev.enter.injEq] at hmem
    rcases hmem with hmem | ⟨rfl, rfl, -⟩
    · exact ih s' now k' hmem
    · rfl

end Balanced

/-! ### The invariant -/

/-- The callback of this activation may dispatch. -/
def Frame.user : Frame S E → Bool
  | .exiting _ => false
  | _ => true

/-- The trace and the committed states. -/
structure Core (initial : S) (w : World S E) : Prop where
  current : w.current = w.commits.getLast?.getD initial
  balanced : ∃ q, Balanced (initial, 0) w.trace (w.entered && !w.exiting) q ∧
    (w.entered = true → q = (w.current, w.commits.length)) ∧
    (w.entered = false → q.2 < w.commits.length)
  named : ∀ s now k, .enter s now k ∈ w.trace → 0 < k ∧ w.commits[k - 1]? = some s

/-- The state is entered, or the action that runs has just committed it. -/
def Settled (w : World S E) : Prop :=
  match w.stack with
  | [] => w.last = some true → w.entered = true
  | .exiting _ :: _ => True
  | .acting t :: _ => w.entered = false → w.current = t.target
  | .entering _ :: _ => w.entered = true

structure Inv (initial : S) (w : World S E) : Prop where
  core : Core initial w
  /-- Only the innermost activation can be in an exit hook, and `exiting_` says so. -/
  top : w.exiting = !(w.stack.head?.all Frame.user)
  below : ∀ f ∈ w.stack.tail, f.user = true
  fired : (∃ f ∈ w.stack, f.user = true) ∨ w.last = some true → w.commits ≠ []
  settled : w.thrown = false → Settled w

/-! ### The parts of `dispatch` -/

section Parts
variable {initial : S} {w w' : World S E} {t : Transition S E} {c : Table S E}

omit [DecidableEq S] [DecidableEq E]

theorem all_of_users {stack : List (Frame S E)} (h : ∀ f ∈ stack, f.user = true) :
    stack.head?.all Frame.user = true := by
  cases stack with
  | nil => rfl
  | cons f rest => exact h f (by simp)

theorem returnTrue_inv (hcore : Core initial w) (hexit : w.exiting = false)
    (husers : ∀ f ∈ w.stack, f.user = true) (hfired : w.commits ≠ [])
    (hentered : w.thrown = false → w.entered = true) : Inv initial (returnTrue w) := by
  have htop := all_of_users husers
  unfold returnTrue
  split
  · rename_i hstack
    rw [List.isEmpty_iff] at hstack
    refine ⟨⟨hcore.current, hcore.balanced, hcore.named⟩, by simp [hexit, hstack], by simp [hstack],
      fun _ => hfired, ?_⟩
    intro hthrown
    simpa [Settled, hstack] using hentered hthrown
  · refine ⟨hcore, by simp [hexit, htop], fun f hf => husers f (List.mem_of_mem_tail hf),
      fun _ => hfired, ?_⟩
    intro hthrown
    unfold Settled
    split
    · exact fun _ => hentered hthrown
    · trivial
    · intro hfalse
      rw [hentered hthrown] at hfalse
      cases hfalse
    · exact hentered hthrown

variable [DecidableEq S]

theorem afterAction_inv (hcore : Core initial w) (hexit : w.exiting = false)
    (husers : ∀ f ∈ w.stack, f.user = true) (hfired : w.commits ≠ [])
    (hsettled : w.thrown = false → w.entered = false → w.current = t.target) :
    Inv initial (afterAction c w t) := by
  unfold afterAction
  split
  · rename_i henter
    obtain ⟨hfalse, hcurrent⟩ := henter
    obtain ⟨q, hbal, -, hlater⟩ := hcore.balanced
    have hcore' : Core initial
        { w with
          entered := true
          trace := w.trace ++ [.enter t.target w.current w.commits.length] } := by
      refine ⟨hcore.current, ⟨(t.target, w.commits.length), ?_, ?_, nofun⟩, ?_⟩
      · rw [hfalse, Bool.false_and] at hbal
        simpa [hexit, hcurrent] using Balanced.enter t.target hbal (hlater hfalse)
      · intro _
        rw [hcurrent]
      · intro s now k hmem
        simp only [List.mem_append, List.mem_singleton, Ev.enter.injEq] at hmem
        rcases hmem with hmem | ⟨rfl, -, rfl⟩
        · exact hcore.named s now k hmem
        · have hlast := hcore.current
          rw [List.getLast?_eq_getLast_of_ne_nil hfired, Option.getD_some, hcurrent] at hlast
          refine ⟨List.length_pos_of_ne_nil hfired, ?_⟩
          rw [← List.getLast?_eq_getElem?, List.getLast?_eq_getLast_of_ne_nil hfired, hlast]
    dsimp only
    split
    · refine ⟨⟨hcore'.current, hcore'.balanced, hcore'.named⟩, by simp [hexit, Frame.user], husers,
        fun _ => hfired, ?_⟩
      intro _
      rfl
    · exact returnTrue_inv hcore' hexit husers hfired fun _ => rfl
  · rename_i hskip
    refine returnTrue_inv hcore hexit husers hfired ?_
    intro hthrown
    cases hentered : w.entered with
    | true => rfl
    | false => exact absurd ⟨hentered, hsettled hthrown hentered⟩ hskip

/-- The machine has left its visit, if it had entered it. -/
theorem commit_inv {q : S × ℕ} (hbal : Balanced (initial, 0) w.trace false q)
    (hvisit : q.2 ≤ w.commits.length)
    (hnamed : ∀ s now k, .enter s now k ∈ w.trace → 0 < k ∧ w.commits[k - 1]? = some s)
    (hexit : w.exiting = false) (husers : ∀ f ∈ w.stack, f.user = true) : Inv initial (commit c w t) := by
  have hcore : Core initial
      { w with current := t.target, entered := false, commits := w.commits ++ [t.target] } := by
    refine ⟨by simp, ⟨q, by simpa using hbal, nofun, ?_⟩, ?_⟩
    · intro _
      simp only [List.length_append, List.length_singleton]
      omega
    · intro s now k hmem
      obtain ⟨hpos, hget⟩ := hnamed s now k hmem
      exact ⟨hpos, by rw [List.getElem?_append_left (List.getElem?_eq_some_iff.mp hget).1, hget]⟩
  unfold commit
  dsimp only
  split
  · refine ⟨⟨hcore.current, hcore.balanced, hcore.named⟩, by simp [hexit, Frame.user], husers,
      by simp, ?_⟩
    intro _ _
    rfl
  · exact afterAction_inv hcore hexit husers (by simp) fun _ _ => rfl

variable [DecidableEq E]

theorem dispatch_inv (hinv : Inv initial w) (huser : w.exiting = false) (event : E) :
    Inv initial (dispatch c w event) := by
  have husers : ∀ f ∈ w.stack, f.user = true := by
    have htop := hinv.top
    rw [huser] at htop
    intro f hf
    cases hstack : w.stack with
    | nil => simp [hstack] at hf
    | cons g rest =>
      rw [hstack] at hf
      rcases List.mem_cons.mp hf with rfl | hf
      · simpa [hstack] using htop
      · exact hinv.below f (by rw [hstack]; exact hf)
  have hcore := hinv.core
  unfold dispatch
  cases findTransition c w.current event with
  | none =>
    dsimp only
    split
    · rename_i hstack
      rw [List.isEmpty_iff] at hstack
      refine ⟨⟨hcore.current, hcore.balanced, hcore.named⟩, hinv.top, hinv.below, ?_, ?_⟩
      · simp [hstack]
      · intro _
        simp [Settled, hstack]
    · exact hinv
  | some t =>
    obtain ⟨q, hbal, hhere, hlater⟩ := hcore.balanced
    -- the ghost reset at an outermost call changes nothing that the parts below look at
    obtain ⟨w₀, hw₀, hcurrent, hentered, hexiting, hstack, hcommits, htrace⟩ :
        ∃ w₀ : World S E, w₀ = (if w.stack.isEmpty then { w with last := none, thrown := false }
          else w) ∧ w₀.current = w.current ∧ w₀.entered = w.entered ∧ w₀.exiting = false ∧
          w₀.stack = w.stack ∧ w₀.commits = w.commits ∧ w₀.trace = w.trace := by
      refine ⟨_, rfl, ?_⟩
      split <;> simp [huser]
    simp only [← hw₀]
    rw [← htrace, ← hentered, huser, Bool.not_false, Bool.and_true] at hbal
    rw [← hentered, ← hcurrent, ← hcommits] at hhere
    rw [← hentered, ← hcommits] at hlater
    rw [← hstack] at husers
    have hnamed := hcore.named
    rw [← htrace, ← hcommits] at hnamed
    cases hflag : w₀.entered with
    | false =>
      rw [hflag] at hbal
      simp only [Bool.false_eq_true, if_false]
      exact commit_inv hbal (Nat.le_of_lt (hlater hflag)) hnamed hexiting husers
    | true =>
      have hq := hhere hflag
      subst hq
      rw [hflag] at hbal
      have hbal' := hbal.exit
      have hnamed' : ∀ s now k, .enter s now k ∈ w₀.trace ++ [.exit w₀.current w₀.commits.length] →
            0 < k ∧ w₀.commits[k - 1]? = some s := by
        intro s now k hmem
        simp only [List.mem_append, List.mem_singleton, reduceCtorEq, or_false] at hmem
        exact hnamed s now k hmem
      simp only [if_true]
      split
      · refine ⟨⟨?_, ⟨_, by simpa [hflag] using hbal', fun _ => rfl, ?_⟩, hnamed'⟩, by
          simp [Frame.user], husers, ?_, fun _ => trivial⟩
        · rw [hcurrent, hcommits]
          exact hcore.current
        · simp
        · rintro (⟨f, hf, hu⟩ | hlast)
          · rcases List.mem_cons.mp hf with rfl | hf
            · cases hu
            · rw [hcommits]
              exact hinv.fired (Or.inl ⟨f, by rw [← hstack]; exact hf, hu⟩)
          · have hlast : w₀.last = some true := hlast
            rw [hw₀] at hlast
            split at hlast
            · cases hlast
            · rw [hcommits]
              exact hinv.fired (Or.inr hlast)
      · exact commit_inv hbal' (Nat.le_refl _) hnamed' hexiting husers

/-- STEP: every action keeps the invariant. -/
theorem step_inv {a : Act E} (hinv : Inv initial w) (hstep : step c w a = some w') : Inv initial w' := by
  have hcore := hinv.core
  cases a with
  | dispatch event =>
    simp only [step] at hstep
    split at hstep
    · cases hstep
    · rename_i huser
      cases hstep
      exact dispatch_inv hinv (by simpa using huser) event
  | ret =>
    cases hstack : w.stack with
    | nil => simp [step, hstack] at hstep
    | cons f rest =>
      have hbelow := hinv.below
      rw [hstack, List.tail_cons] at hbelow
      have htop := hinv.top
      rw [hstack] at htop
      cases f with
      | exiting t =>
        simp only [step, hstack] at hstep
        cases hstep
        have hexit : w.exiting = true := by simpa [Frame.user] using htop
        obtain ⟨q, hbal, hhere, hlater⟩ := hcore.balanced
        rw [hexit, Bool.not_true, Bool.and_false] at hbal
        have hvisit : q.2 ≤ w.commits.length := by
          cases hflag : w.entered with
          | true => exact Nat.le_of_eq (by rw [hhere hflag])
          | false => exact Nat.le_of_lt (hlater hflag)
        exact commit_inv hbal hvisit hcore.named rfl hbelow
      | acting t =>
        simp only [step, hstack] at hstep
        cases hstep
        have hexit : w.exiting = false := by simpa [Frame.user] using htop
        refine afterAction_inv ⟨hcore.current, hcore.balanced, hcore.named⟩ hexit hbelow
          (hinv.fired (Or.inl ⟨.acting t, by simp [hstack], rfl⟩)) ?_
        intro hthrown hentered
        have hsettled := hinv.settled hthrown
        rw [Settled, hstack] at hsettled
        exact hsettled hentered
      | entering s =>
        simp only [step, hstack] at hstep
        cases hstep
        have hexit : w.exiting = false := by simpa [Frame.user] using htop
        refine returnTrue_inv ⟨hcore.current, hcore.balanced, hcore.named⟩ hexit hbelow
          (hinv.fired (Or.inl ⟨.entering s, by simp [hstack], rfl⟩)) ?_
        intro hthrown
        have hsettled := hinv.settled hthrown
        rw [Settled, hstack] at hsettled
        exact hsettled
  | throw =>
    cases hstack : w.stack with
    | nil => simp [step, hstack] at hstep
    | cons f rest =>
      cases f with
      | acting t =>
        simp only [step, hstack] at hstep
        cases hstep
        have hbelow := hinv.below
        rw [hstack, List.tail_cons] at hbelow
        have hexit : w.exiting = false := by
          have htop := hinv.top
          rw [hstack] at htop
          simpa [Frame.user] using htop
        refine ⟨⟨hcore.current, hcore.balanced, hcore.named⟩, ?_,
          fun f hf => hbelow f (List.mem_of_mem_tail hf), ?_, nofun⟩
        · simp [hexit, all_of_users hbelow]
        · rintro -
          exact hinv.fired (Or.inl ⟨.acting t, by simp [hstack], rfl⟩)
      | _ => simp [step, hstack] at hstep

omit [DecidableEq S] [DecidableEq E] in
theorem inv_init (initial : S) : Inv initial (init initial : World S E) where
  core := ⟨rfl, ⟨_, Balanced.start, fun _ => rfl, nofun⟩, by simp [init]⟩
  top := rfl
  below := by simp [init]
  fired := by simp [init]
  settled := by simp [Settled, init]

end Parts

/-! ### The contract -/

/-- What holds in a state of the machine. -/
structure Contract (initial : S) (w : World S E) : Prop where
  /-- The hook steps take turns, from an exit of the initial state on; an exit is of the visit that
      was entered last, and an entry is of the state that is current. -/
  balanced : ∃ q, Balanced (initial, 0) w.trace (w.entered && !w.exiting) q
  current : w.current = w.commits.getLast?.getD initial
  /-- Where the machine rests, the last entry is of the visit it is in. -/
  rests : w.entered = true → w.exiting = false → w.trace = [] ∧ w.commits = [] ∨
    w.trace.getLast? = some (.enter w.current w.current w.commits.length)
  /-- Visits are numbered by the committed transitions, and a visit that was not entered is not
      exited. -/
  named : ∀ s now k, .enter s now k ∈ w.trace → now = s ∧ 0 < k ∧ w.commits[k - 1]? = some s
  skipped : ∀ k, 0 < k → (∀ s now, .enter s now k ∉ w.trace) → ∀ s, .exit s k ∉ w.trace
  /-- An outermost `dispatch` that returned true, without a throw, ends in the state committed last,
      and has entered it. -/
  settled : w.stack = [] → w.last = some true → w.thrown = false →
    w.entered = true ∧ w.exiting = false ∧ w.commits.getLast? = some w.current

/-- CORRECT: whatever the callbacks dispatch and throw, the hooks stay balanced. -/
theorem hooks_balanced (c : Table S E) (initial : S) (acts : List (Act E)) (w : World S E)
    (hrun : run (step c) (init initial) acts = some w) : Contract initial w := by
  have hinv : Inv initial w :=
    run_inv (I := Inv initial) (fun _ _ _ => step_inv) acts _ w (inv_init initial) hrun
  obtain ⟨q, hbal, hhere, -⟩ := hinv.core.balanced
  refine ⟨⟨q, hbal⟩, hinv.core.current, ?_, ?_, ?_, ?_⟩
  · intro hentered hexit
    rw [hentered, hexit] at hbal
    have hq := hhere hentered
    subst hq
    rcases hbal.last with ⟨htrace, hstart⟩ | hlast
    · exact Or.inl ⟨htrace, List.eq_nil_of_length_eq_zero (Prod.mk.inj hstart).2⟩
    · exact Or.inr hlast
  · intro s now k hmem
    exact ⟨hbal.now s now k hmem, hinv.core.named s now k hmem⟩
  · intro k hpos hnone s hexit
    rcases hbal.entered.2 s k hexit with hstart | henter
    · have hzero := (Prod.mk.inj hstart).2
      omega
    · exact hnone s s henter
  · intro hstack hlast hthrown
    have hsettled := hinv.settled hthrown
    rw [Settled, hstack] at hsettled
    have htop := hinv.top
    rw [hstack] at htop
    have hfired := hinv.fired (Or.inr hlast)
    have hcurrent := hinv.core.current
    rw [List.getLast?_eq_getLast_of_ne_nil hfired] at hcurrent ⊢
    exact ⟨hsettled hlast, by simpa using htop, by rw [hcurrent, Option.getD_some]⟩

/-- Three states in a row, all hooked; every action is bound. -/
def sampleTable : Table ℕ Unit where
  transitions := [⟨0, (), 1, true⟩, ⟨1, (), 2, true⟩, ⟨2, (), 0, true⟩]
  entryHooks := [⟨0, true⟩, ⟨1, true⟩, ⟨2, true⟩]
  exitHooks := [⟨0, true⟩, ⟨1, true⟩, ⟨2, true⟩]

/-- The first action dispatches and catches what the second one throws, so neither 1 nor 2 is
    entered; the next `dispatch` leaves 2 without its exit hook. -/
theorem hooks_balanced_sample : ∃ w, run (step sampleTable) (init 0)
    [.dispatch (), .ret, .dispatch (), .throw, .ret, .dispatch (), .ret, .ret] = some w ∧
      w.trace = [.exit 0 0, .enter 0 0 3] ∧ Contract 0 w := by
  have htrace : (run (step sampleTable) (init 0)
      [.dispatch (), .ret, .dispatch (), .throw, .ret, .dispatch (), .ret, .ret]).map World.trace =
        some [.exit 0 0, .enter 0 0 3] := by
    decide
  obtain ⟨w, hrun, hw⟩ := Option.map_eq_some_iff.mp htrace
  exact ⟨w, hrun, hw, hooks_balanced sampleTable 0 _ w hrun⟩

end Metl.Fsm
