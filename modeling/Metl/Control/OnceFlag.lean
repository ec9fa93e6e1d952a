import Metl.Schemes.Run

/-! `metl::once_flag` and `try_call_once`: an initializer that is run at most once.

        state_     k_init ──claim──▶ k_running ──finish──▶ k_done
                                        │
                     initializer        │ runs outside the lock; may return, throw, call back, or hang

    The claim is one step under the lock. The check before it, the initializer and the final store are
    steps of their own, and between any two of them every other context may take its own. A context is
    a stack of calls: an initializer is user code, and may make calls on the same flag. -/

namespace Metl.OnceFlag
open Metl.Schemes Function

/-- `state_`. -/
inductive Phase where
  | init
  | running
  | done
  deriving DecidableEq

/-- Where a running call is: before the load of `is_done()`, before the check or the claim of
    `try_call_once()`, in its initializer, before its final store. -/
inductive Point where
  | isDone
  | check
  | claim
  | body
  | finish
  deriving DecidableEq

/-- What the program can observe, in the order of the steps; a call is named by its place here. -/
inductive Event where
  | began (call : ℕ)
  | started (call : ℕ)
  | returned (call : ℕ)
  | threw (call : ℕ)
  | result (call : ℕ) (value : Bool)
  deriving DecidableEq

/-- The flag, the running calls and the calls of each context, innermost first. -/
structure State where
  flag : Phase
  point : ℕ → Option Point
  nested : ℕ → List ℕ
  log : List Event

inductive Act where
  | tryCallOnce
  | isDone
  | resume
  | returns
  | throws

def State.init : State := ⟨.init, fun _ => none, fun _ => [], []⟩

/-- User code runs in a context that makes no call, or in an initializer. -/
def State.userRuns (s : State) (context : ℕ) : Bool :=
  match s.nested context with
  | [] => true
  | call :: _ => s.point call = some .body

def State.begin (s : State) (context : ℕ) (p : Point) : State :=
  ⟨s.flag, update s.point s.log.length (some p),
    update s.nested context (s.log.length :: s.nested context), s.log ++ [.began s.log.length]⟩

def State.goTo (s : State) (call : ℕ) (p : Point) (events : List Event) : State :=
  ⟨s.flag, update s.point call (some p), s.nested, s.log ++ events⟩

/-- The innermost call of the context ends. -/
def State.leave (s : State) (context call : ℕ) (rest : List ℕ) (event : Event) : State :=
  ⟨s.flag, update s.point call none, update s.nested context rest, s.log ++ [event]⟩

/-- The next step of the library's code in a call. -/
def State.resume (s : State) (context call : ℕ) (rest : List ℕ) : Point → Option State
  | .isDone => some (s.leave context call rest (.result call (s.flag == .done)))
  | .check =>
    if s.flag = .done then some (s.leave context call rest (.result call true))
    else some (s.goTo call .claim [])
  | .claim =>
    let seen := s.flag
    if seen = .init then some (State.goTo { s with flag := .running } call .body [.started call])
    else some (s.leave context call rest (.result call (seen == .done)))
  | .body => none
  | .finish => some (State.leave { s with flag := .done } context call rest (.result call true))

def step (s : State) : ℕ × Act → Option State
  | (context, .tryCallOnce) => if s.userRuns context then some (s.begin context .check) else none
  | (context, .isDone) => if s.userRuns context then some (s.begin context .isDone) else none
  | (context, .resume) =>
    match s.nested context with
    | [] => none
    | call :: rest => (s.point call).bind (s.resume context call rest)
  | (context, .returns) =>
    match s.nested context with
    | [] => none
    | call :: _ => if s.point call = some .body then some (s.goTo call .finish [.returned call]) else none
  | (context, .throws) =>
    match s.nested context with
    | [] => none
    | call :: rest =>
      if s.point call = some .body then some (s.leave context call rest (.threw call)) else none

/-! ### What a step can do -/

/-- The new flag, the call that moves, where it is then, and what is observed. -/
inductive Move (s : State) : Phase → ℕ → Option Point → List Event → Prop where
  | begins (p : Point) (hp : p = .isDone ∨ p = .check) :
      Move s s.flag s.log.length (some p) [.began s.log.length]
  | reads {call : ℕ} (h : s.point call = some .isDone) :
      Move s s.flag call none [.result call (s.flag == .done)]
  | sees {call : ℕ} (h : s.point call = some .check) (hflag : s.flag = .done) :
      Move s s.flag call none [.result call true]
  | misses {call : ℕ} (h : s.point call = some .check) (hflag : s.flag ≠ .done) :
      Move s s.flag call (some .claim) []
  | claims {call : ℕ} (h : s.point call = some .claim) (hflag : s.flag = .init) :
      Move s .running call (some .body) [.started call]
  | finds {call : ℕ} (h : s.point call = some .claim) (hflag : s.flag ≠ .init) :
      Move s s.flag call none [.result call (s.flag == .done)]
  | returns {call : ℕ} (h : s.point call = some .body) :
      Move s s.flag call (some .finish) [.returned call]
  | throws {call : ℕ} (h : s.point call = some .body) : Move s s.flag call none [.threw call]
  | stores {call : ℕ} (h : s.point call = some .finish) : Move s .done call none [.result call true]

/-- The state after a move, up to the stacks. -/
structure Moved (s s' : State) (flag : Phase) (call : ℕ) (p : Option Point) (events : List Event) :
    Prop where
  flag_eq : s'.flag = flag
  point_eq : s'.point = update s.point call p
  log_eq : s'.log = s.log ++ events

variable {s s' : State} {call i j : ℕ} {p : Option Point} {a : ℕ × Act}
  {events before after : List Event} {point owner : ℕ → Option Point} {flag : Phase}

theorem resume_move {context : ℕ} {rest : List ℕ} {p : Point} (hp : s.point call = some p)
    (h : s.resume context call rest p = some s') :
    ∃ flag q events, Move s flag call q events ∧ Moved s s' flag call q events := by
  cases p with
  | isDone =>
    cases h
    exact ⟨_, _, _, .reads hp, rfl, rfl, rfl⟩
  | check =>
    simp only [State.resume] at h
    split at h <;> rename_i hflag <;> cases h
    · exact ⟨_, _, _, .sees hp hflag, rfl, rfl, rfl⟩
    · exact ⟨_, _, _, .misses hp hflag, rfl, rfl, rfl⟩
  | claim =>
    simp only [State.resume] at h
    split at h <;> rename_i hflag <;> cases h
    · exact ⟨_, _, _, .claims hp hflag, rfl, rfl, rfl⟩
    · exact ⟨_, _, _, .finds hp hflag, rfl, rfl, rfl⟩
  | body => cases h
  | finish =>
    cases h
    exact ⟨_, _, _, .stores hp, rfl, rfl, rfl⟩

theorem step_move (h : step s a = some s') :
    ∃ flag call p events, Move s flag call p events ∧ Moved s s' flag call p events := by
  obtain ⟨context, act⟩ := a
  cases act with
  | tryCallOnce =>
    simp only [step] at h
    split at h <;> cases h
    exact ⟨_, _, _, _, .begins .check (.inr rfl), rfl, rfl, rfl⟩
  | isDone =>
    simp only [step] at h
    split at h <;> cases h
    exact ⟨_, _, _, _, .begins .isDone (.inl rfl), rfl, rfl, rfl⟩
  | resume =>
    simp only [step] at h
    split at h
    · cases h
    · obtain ⟨p, hp, hresume⟩ := Option.bind_eq_some_iff.mp h
      obtain ⟨flag, q, events, hmove, hmoved⟩ := resume_move hp hresume
      exact ⟨flag, _, q, events, hmove, hmoved⟩
  | returns =>
    simp only [step] at h
    split at h
    · cases h
    · split at h <;> cases h
      exact ⟨_, _, _, _, .returns (by assumption), rfl, rfl, rfl⟩
  | throws =>
    simp only [step] at h
    split at h
    · cases h
    · split at h <;> cases h
      exact ⟨_, _, _, _, .throws (by assumption), rfl, rfl, rfl⟩

/-! ### The life of the flag -/

/-- The call is inside its initializer, or between it and the store. -/
def Point.owns : Point → Bool
  | .body => true
  | .finish => true
  | _ => false

def owners (point : ℕ → Option Point) (call : ℕ) : Option Point := (point call).filter Point.owns

/-- All but the calls that begin and the answer `false`. -/
def Event.weighs : Event → Bool
  | .began _ => false
  | .result _ value => value
  | _ => true

/-- The flag, the call that owns it, and the weighty events so far. -/
inductive Stage : Phase → (ℕ → Option Point) → List Event → Prop where
  | idle : Stage .init (fun _ => none) []
  | runs (j : ℕ) : Stage .running (update (fun _ => none) j (some .body)) [.started j]
  | failed (j : ℕ) : Stage .running (fun _ => none) [.started j, .threw j]
  | stops (j : ℕ) :
      Stage .running (update (fun _ => none) j (some .finish)) [.started j, .returned j]
  | done (j : ℕ) (calls : List ℕ) :
      Stage .done (fun _ => none) (.started j :: .returned j :: calls.map fun i => .result i true)

section Stage
variable {flag : Phase} {owner : ℕ → Option Point} {events : List Event}

theorem Stage.started (h : Stage .init owner events) (i : ℕ) :
    Stage .running (update owner i (some .body)) (events ++ [.started i]) := by
  cases h
  exact .runs i

variable {i : ℕ}

theorem update_owner {j : ℕ} {p q : Point} (h : update (fun _ => none) j (some p) i = some q) :
    i = j ∧ p = q := by
  rcases eq_or_ne i j with rfl | hij
  · rw [update_self] at h
    exact ⟨rfl, Option.some.inj h⟩
  · rw [update_of_ne hij] at h
    cases h

theorem Stage.returned (h : Stage flag owner events) (hi : owner i = some .body) :
    Stage flag (update owner i (some .finish)) (events ++ [.returned i]) := by
  cases h with
  | runs j =>
    obtain ⟨rfl, -⟩ := update_owner hi
    rw [update_idem]
    exact .stops i
  | stops j => exact absurd (update_owner hi).2 (by decide)
  | idle => cases hi
  | failed j => cases hi
  | done j calls => cases hi

theorem Stage.threw (h : Stage flag owner events) (hi : owner i = some .body) :
    Stage flag (update owner i none) (events ++ [.threw i]) := by
  cases h with
  | runs j =>
    obtain ⟨rfl, -⟩ := update_owner hi
    rw [update_idem, update_eq_self_iff.mpr rfl]
    exact .failed i
  | stops j => exact absurd (update_owner hi).2 (by decide)
  | idle => cases hi
  | failed j => cases hi
  | done j calls => cases hi

theorem Stage.stored (h : Stage flag owner events) (hi : owner i = some .finish) :
    Stage .done (update owner i none) (events ++ [.result i true]) := by
  cases h with
  | stops j =>
    obtain ⟨rfl, -⟩ := update_owner hi
    rw [update_idem, update_eq_self_iff.mpr rfl]
    exact .done i [i]
  | runs j => exact absurd (update_owner hi).2 (by decide)
  | idle => cases hi
  | failed j => cases hi
  | done j calls => cases hi

theorem Stage.seen (h : Stage .done owner events) (i : ℕ) :
    Stage .done owner (events ++ [.result i true]) := by
  cases h with
  | done j calls =>
    have hsnoc := Stage.done j (calls ++ [i])
    rw [List.map_append] at hsnoc
    exact hsnoc

/-- `true` has been answered only once the flag is done. -/
theorem Stage.flag_done (h : Stage flag owner events) (hi : .result i true ∈ events) : flag = .done := by
  cases h with
  | done j calls => rfl
  | _ => simp at hi

theorem Stage.events_eq (h : Stage .done owner events) :
    ∃ (j : ℕ) (calls : List ℕ), events = .started j :: .returned j :: calls.map fun i => .result i true := by
  cases h with
  | done j calls => exact ⟨j, calls, rfl⟩

theorem Stage.owner_none (h : Stage .done owner events) (i : ℕ) : owner i = none := by
  cases h
  rfl

end Stage

/-- A call that began after some call had answered `true`. -/
def Late (log : List Event) (call : ℕ) : Prop := ∃ i, .result i true ∈ log.take call

theorem late_append {log : List Event} (h : call ≤ log.length) :
    Late (log ++ events) call ↔ Late log call := by
  rw [Late, Late, List.take_append_of_le_length h]

structure Inv (s : State) : Prop where
  stage : Stage s.flag (owners s.point) (s.log.filter Event.weighs)
  begun : ∀ i, s.point i ≠ none → i < s.log.length
  answered : ∀ i b, .result i b ∈ s.log → i < s.log.length
  named : ∀ p i, s.log[p]? = some (Event.began i) → p = i
  unclaimed : ∀ i, s.point i = some .claim → ¬ Late s.log i
  settled : ∀ i b, .result i b ∈ s.log → Late s.log i → b = true

theorem inv_init : Inv State.init where
  stage := .idle
  begun := fun i h => absurd rfl h
  answered := by rintro i b ⟨⟩
  named := by rintro p i ⟨⟩
  unclaimed := by rintro i ⟨⟩
  settled := by rintro i b ⟨⟩

theorem Inv.flag_done (hs : Inv s) (h : .result i true ∈ s.log) : s.flag = .done :=
  hs.stage.flag_done (List.mem_filter.mpr ⟨h, rfl⟩)

theorem Inv.late_done (hs : Inv s) (h : Late s.log call) : s.flag = .done := by
  obtain ⟨i, hi⟩ := h
  exact hs.flag_done (List.mem_of_mem_take hi)

theorem owners_update (point : ℕ → Option Point) (call : ℕ) (p : Option Point) :
    owners (update point call p) = update (owners point) call (p.filter Point.owns) := by
  funext i
  rcases eq_or_ne i call with rfl | hi
  · rw [owners, update_self, update_self]
  · rw [owners, update_of_ne hi, update_of_ne hi, owners]

theorem owners_eq (h : point call = p) : owners point call = p.filter Point.owns := by
  rw [owners, h]

/-- A call that does not own the flag moves without taking it. -/
theorem owners_keep {q : Option Point} (h : point call = p) (hp : p.filter Point.owns = none)
    (hq : q.filter Point.owns = none) : owners (update point call q) = owners point := by
  rw [owners_update, hq, update_eq_self_iff, owners_eq h, hp]

/-- STEP: the flag keeps to its life. -/
theorem Move.stage (hs : Inv s) (h : Move s flag call p events) :
    Stage flag (owners (update s.point call p)) ((s.log ++ events).filter Event.weighs) := by
  have hstage := hs.stage
  rw [List.filter_append]
  cases h with
  | begins p hp =>
    have hfree : s.point s.log.length = none := by
      by_contra hne
      exact Nat.lt_irrefl _ (hs.begun _ hne)
    have hq : (some p).filter Point.owns = none := by rcases hp with rfl | rfl <;> rfl
    rw [owners_keep hfree rfl hq]
    simpa [Event.weighs] using hstage
  | reads h =>
    rw [owners_keep h rfl rfl]
    by_cases hdone : s.flag = .done
    · rw [hdone] at hstage ⊢
      exact hstage.seen call
    · simpa [Event.weighs, hdone] using hstage
  | sees h hflag =>
    rw [owners_keep h rfl rfl]
    rw [hflag] at hstage ⊢
    exact hstage.seen call
  | misses h hflag =>
    rw [owners_keep h rfl rfl]
    simpa using hstage
  | claims h hflag =>
    rw [hflag] at hstage
    rw [owners_update]
    exact hstage.started call
  | finds h hflag =>
    rw [owners_keep h rfl rfl]
    by_cases hdone : s.flag = .done
    · rw [hdone] at hstage ⊢
      exact hstage.seen call
    · simpa [Event.weighs, hdone] using hstage
  | returns h =>
    rw [owners_update]
    exact hstage.returned (owners_eq h)
  | throws h =>
    rw [owners_update]
    exact hstage.threw (owners_eq h)
  | stores h =>
    rw [owners_update]
    exact hstage.stored (owners_eq h)

/-- A call that moves has begun, now or before. -/
theorem Move.call_lt (hs : Inv s) (h : Move s flag call p events) : call < (s.log ++ events).length := by
  rw [List.length_append]
  have hrunning : ∀ {q}, s.point call = some q → call < s.log.length := by
    intro q hq
    exact hs.begun call (by rw [hq]; exact Option.some_ne_none q)
  cases h with
  | begins p hp => exact Nat.lt_succ_self _
  | reads h => exact Nat.lt_add_right _ (hrunning h)
  | sees h _ => exact Nat.lt_add_right _ (hrunning h)
  | misses h _ => exact Nat.lt_add_right _ (hrunning h)
  | claims h _ => exact Nat.lt_add_right _ (hrunning h)
  | finds h _ => exact Nat.lt_add_right _ (hrunning h)
  | returns h => exact Nat.lt_add_right _ (hrunning h)
  | throws h => exact Nat.lt_add_right _ (hrunning h)
  | stores h => exact Nat.lt_add_right _ (hrunning h)

/-- What a late call answers is `true`. -/
theorem Move.answers (hs : Inv s) (h : Move s flag call p events) {b : Bool} (hi : .result i b ∈ events) :
    i < s.log.length ∧ (Late s.log i → b = true) := by
  cases h with
  | reads h =>
    obtain ⟨rfl, rfl⟩ : i = call ∧ b = (s.flag == .done) := by simpa using hi
    refine ⟨hs.begun i (by rw [h]; rintro ⟨⟩), fun hlate => ?_⟩
    rw [hs.late_done hlate]
    rfl
  | sees h _ =>
    obtain ⟨rfl, rfl⟩ : i = call ∧ b = true := by simpa using hi
    exact ⟨hs.begun i (by rw [h]; rintro ⟨⟩), fun _ => rfl⟩
  | finds h _ =>
    obtain ⟨rfl, rfl⟩ : i = call ∧ b = (s.flag == .done) := by simpa using hi
    exact ⟨hs.begun i (by rw [h]; rintro ⟨⟩), fun hlate => absurd hlate (hs.unclaimed i h)⟩
  | stores h =>
    obtain ⟨rfl, rfl⟩ : i = call ∧ b = true := by simpa using hi
    exact ⟨hs.begun i (by rw [h]; rintro ⟨⟩), fun _ => rfl⟩
  | _ => simp at hi

/-- A call comes to its claim only while nobody has answered `true`. -/
theorem Move.not_late (hs : Inv s) (h : Move s flag call (some .claim) events) :
    ¬ Late (s.log ++ events) call := by
  generalize hp : some Point.claim = p at h
  cases h with
  | begins p hq => rcases hq with rfl | rfl <;> cases hp
  | misses h hflag =>
    rw [late_append (Nat.le_of_lt (hs.begun call (by rw [h]; rintro ⟨⟩)))]
    exact fun hlate => hflag (hs.late_done hlate)
  | _ => cases hp

/-- A call is named by the place where it begins. -/
theorem Move.began (h : Move s flag call p events) {q : ℕ} (hq : events[q]? = some (Event.began i)) :
    s.log.length + q = i := by
  cases h with
  | misses => cases hq
  | begins p hp =>
    rcases q with _ | q
    · simp at hq
      omega
    · simp at hq
  | _ => rcases q with _ | q <;> simp at hq

/-- STEP: every step keeps the invariant. -/
theorem step_inv (hs : Inv s) (h : step s a = some s') : Inv s' := by
  obtain ⟨flag, call, p, events, hmove, hflag, hpoint, hlog⟩ := step_move h
  -- a call that has begun is late after the step when it was late before
  have hkept : ∀ i, i < s.log.length → (Late s'.log i ↔ Late s.log i) := by
    intro i hi
    rw [hlog, late_append (Nat.le_of_lt hi)]
  have hother : ∀ i, i ≠ call → s'.point i = s.point i := by
    intro i hi
    rw [hpoint, update_of_ne hi]
  refine ⟨?_, ?_, ?_, ?_, ?_, ?_⟩
  · rw [hflag, hpoint, hlog]
    exact hmove.stage hs
  · intro i hi
    by_cases hic : i = call
    · rw [hlog, hic]
      exact hmove.call_lt hs
    · rw [hother i hic] at hi
      rw [hlog, List.length_append]
      exact Nat.lt_add_right _ (hs.begun i hi)
  · intro i b hib
    rw [hlog] at hib ⊢
    rw [List.length_append]
    rcases List.mem_append.mp hib with hold | hnew
    · exact Nat.lt_add_right _ (hs.answered i b hold)
    · exact Nat.lt_add_right _ (hmove.answers hs hnew).1
  · intro q i hq
    rw [hlog] at hq
    rcases Nat.lt_or_ge q s.log.length with hlt | hge
    · rw [List.getElem?_append_left hlt] at hq
      exact hs.named q i hq
    · rw [List.getElem?_append_right hge] at hq
      have := hmove.began hq
      omega
  · intro i hi
    rcases eq_or_ne i call with rfl | hic
    · rw [hpoint, update_self] at hi
      subst hi
      rw [hlog]
      exact hmove.not_late hs
    · rw [hother i hic] at hi
      rw [hkept i (hs.begun i (by rw [hi]; rintro ⟨⟩))]
      exact hs.unclaimed i hi
  · intro i b hib hlate
    rw [hlog] at hib
    rcases List.mem_append.mp hib with hold | hnew
    · exact hs.settled i b hold ((hkept i (hs.answered i b hold)).mp hlate)
    · obtain ⟨hlt, htrue⟩ := hmove.answers hs hnew
      exact htrue ((hkept i hlt).mp hlate)

/-! ### Every run -/

def Event.isStart : Event → Bool
  | .started _ => true
  | _ => false

/-- What is asked of the flag wherever a run may end. -/
structure Contract (s : State) : Prop where
  once : (s.log.filter Event.isStart).length ≤ 1
  honest : ∀ before after i, s.log = before ++ .result i true :: after →
    ∃ j, .started j ∈ before ∧ .returned j ∈ before
  later : ∀ before after i j b, s.log = before ++ .result i true :: after → .began j ∈ after →
    .result j b ∈ s.log → b = true
  prompt : ∀ before after i j context rest, s.log = before ++ .result i true :: after →
    .began j ∈ after → s.nested context = j :: rest → s.point j ≠ none →
      step s (context, .resume) = some (s.leave context j rest (.result j true))
  failed : ∀ j, .threw j ∈ s.log → ∀ i, .result i true ∉ s.log
  unreturned : (∀ j, .returned j ∉ s.log) → ∀ i, .result i true ∉ s.log

theorem filter_isStart (log : List Event) :
    log.filter Event.isStart = (log.filter Event.weighs).filter Event.isStart := by
  rw [List.filter_filter]
  refine List.filter_congr fun e _ => ?_
  cases e <;> rfl

theorem Stage.once (h : Stage flag owner events) : (events.filter Event.isStart).length ≤ 1 := by
  cases h with
  | done j calls =>
    have hnone : (calls.map fun i => Event.result i true).filter Event.isStart = [] := by
      rw [List.filter_eq_nil_iff]
      intro e he
      obtain ⟨i, -, rfl⟩ := List.mem_map.mp he
      exact Bool.false_ne_true
    rw [List.filter_cons_of_pos rfl, List.filter_cons_of_neg Bool.false_ne_true, hnone]
    exact Nat.le_refl 1
  | idle => exact Nat.zero_le 1
  | runs j => exact Nat.le_refl 1
  | failed j => exact Nat.le_refl 1
  | stops j => exact Nat.le_refl 1

/-- The first answer `true` comes after the return of the initializer. -/
theorem Inv.honest (hs : Inv s) (hlog : s.log = before ++ .result i true :: after) :
    ∃ j, .started j ∈ before ∧ .returned j ∈ before := by
  have hstage := hs.stage
  have hdone := hs.flag_done (i := i) (by rw [hlog]; exact List.mem_append_right _ List.mem_cons_self)
  rw [hdone] at hstage
  obtain ⟨j, calls, hall⟩ := hstage.events_eq
  rw [hlog, List.filter_append, List.filter_cons_of_pos rfl] at hall
  refine ⟨j, ?_⟩
  -- the two events of the initializer stand before every answer
  rcases hbefore : before.filter Event.weighs with _ | ⟨e, _ | ⟨e', es⟩⟩
  · rw [hbefore] at hall
    cases hall
  · rw [hbefore] at hall
    cases hall
  · rw [hbefore] at hall
    simp only [List.cons_append, List.cons.injEq] at hall
    obtain ⟨rfl, rfl, -⟩ := hall
    have hmem : ∀ e, e ∈ before.filter Event.weighs → e ∈ before := fun e he => (List.mem_filter.mp he).1
    rw [hbefore] at hmem
    exact ⟨hmem _ List.mem_cons_self, hmem _ (List.mem_cons_of_mem _ List.mem_cons_self)⟩

/-- A call that begins after an answer `true` is late. -/
theorem Inv.late (hs : Inv s) (hlog : s.log = before ++ .result i true :: after) (hj : .began j ∈ after) :
    Late s.log j := by
  obtain ⟨q, hq⟩ := List.mem_iff_getElem?.mp hj
  have hplace : s.log[before.length + (q + 1)]? = some (Event.began j) := by
    rw [hlog, List.getElem?_append_right (Nat.le_add_right _ _), Nat.add_sub_cancel_left,
      List.getElem?_cons_succ, hq]
  have hname := hs.named _ _ hplace
  refine ⟨i, ?_⟩
  rw [hlog, ← hname, List.take_append, Nat.add_sub_cancel_left, List.take_succ_cons]
  exact List.mem_append_right _ List.mem_cons_self

theorem Stage.failed_false (h : Stage flag owner events) (hj : .threw j ∈ events) :
    .result i true ∉ events := by
  cases h with
  | failed k => simp
  | _ => simp at hj

theorem Inv.contract (hs : Inv s) : Contract s where
  once := by
    rw [filter_isStart]
    exact hs.stage.once
  honest := fun before after i hlog => hs.honest hlog
  later := fun before after i j b hlog hj hb => hs.settled j b hb (hs.late hlog hj)
  prompt := fun before after i j context rest hlog hj hstack hrunning => by
    have hlate := hs.late hlog hj
    have hdone := hs.late_done hlate
    have hstage := hs.stage
    rw [hdone] at hstage
    have howner := hstage.owner_none j
    obtain ⟨p, hp⟩ := Option.ne_none_iff_exists'.mp hrunning
    simp only [step, hstack, hp, Option.bind_some]
    cases p with
    | isDone =>
      rw [State.resume, hdone]
      rfl
    | check => rw [State.resume, if_pos hdone]
    | claim => exact absurd hlate (hs.unclaimed j hp)
    | body =>
      rw [owners_eq hp] at howner
      cases howner
    | finish =>
      rw [owners_eq hp] at howner
      cases howner
  failed := fun j hj i hi =>
    hs.stage.failed_false (List.mem_filter.mpr ⟨hj, rfl⟩) (List.mem_filter.mpr ⟨hi, rfl⟩)
  unreturned := fun hnone i hi => by
    obtain ⟨before, after, hlog⟩ := List.append_of_mem hi
    obtain ⟨j, -, hj⟩ := hs.honest hlog
    exact hnone j (by rw [hlog]; exact List.mem_append_left _ hj)

/-- CORRECT: in every interleaving the initializer is started at most once, and `true` is answered only
    after it has returned, and always from then on. -/
theorem initializer_runs_once (acts : List (ℕ × Act)) (s : State)
    (hrun : run step State.init acts = some s) : Contract s :=
  (run_inv (fun _ _ _ hs h => step_inv hs h) acts _ _ inv_init hrun).contract

/-- The initializer of one context calls back, another context asks meanwhile, and both ask again. -/
theorem initializer_runs_once_sample :
    ∃ s, run step State.init [(0, .tryCallOnce), (0, .resume), (0, .resume), (0, .tryCallOnce),
        (1, .tryCallOnce), (0, .resume), (1, .resume), (0, .resume), (0, .returns), (1, .resume),
        (0, .resume), (1, .isDone), (1, .resume)] = some s ∧
      s.log = [.began 0, .started 0, .began 2, .began 3, .result 2 false, .returned 0, .result 3 false,
        .result 0 true, .began 8, .result 8 true] ∧ Contract s := by
  obtain ⟨s, hs, hlog⟩ := Option.map_eq_some_iff.mp (show (run step State.init [(0, .tryCallOnce),
    (0, .resume), (0, .resume), (0, .tryCallOnce), (1, .tryCallOnce), (0, .resume), (1, .resume),
    (0, .resume), (0, .returns), (1, .resume), (0, .resume), (1, .isDone), (1, .resume)]).map State.log =
      some [.began 0, .started 0, .began 2, .began 3, .result 2 false, .returned 0, .result 3 false,
        .result 0 true, .began 8, .result 8 true] by decide +kernel)
  exact ⟨s, hs, hlog, initializer_runs_once _ s hs⟩

end Metl.OnceFlag
