import Metl.Queues.MpmcTickets

/-! What a `false` from `metl::mpmc_queue` means.

    A ticket that went stale can only make the sequence look ahead, which retries; so the load that
    makes a call give up was made with the current counter, against a cell whose owner one lap back
    has not finished. A call that runs alone meets no unfinished owner, and there failure means full
    or empty and nothing else. -/

namespace Metl.MpmcQueue
open Metl.Schemes Metl.IndexDistance Function

variable {T : Type*} {c : Cfg} {s s' : State T c.w} {g : View} {t : ℕ}

/-! ### A stale ticket never looks behind -/

variable {p t : ℕ} {pc : Pc T c.w} {ret : Ret T} {v : T} {pos : BitVec c.w} {weak : List Bool}

/-- A cell behind a push ticket is the one of the current counter, still at the ticket a lap back. -/
theorem behind_push (ho : Order c.capacity s.enq s.deq g) (hp : p ≤ s.enq)
    (hlt : g.seq (p % c.capacity) < p) : p = s.enq ∧ g.turn (p % c.capacity) + c.capacity = p := by
  have hge : g.turn (p % c.capacity) ≤ g.seq (p % c.capacity) := by
    unfold View.seq
    cases g.stage (p % c.capacity) <;> simp only [Stage.seq] <;> omega
  have heq : p = s.enq := by
    by_contra hne
    have := ho.turn_ge c.capacity_pos (p := p) (by omega)
    omega
  subst heq
  rcases ho.turn_enq c.capacity_pos with h | h
  · omega
  · exact ⟨rfl, h⟩

/-- A cell behind a pop ticket is the one of the current counter, and its ticket is not published. -/
theorem behind_pop (ho : Order c.capacity s.enq s.deq g) (hp : p ≤ s.deq)
    (hlt : g.seq (p % c.capacity) < p + 1) : p = s.deq ∧ ¬g.Reached c.capacity p 3 := by
  have hde := ho.deq_le
  have hord := ho.ord _ (Nat.mod_lt p c.capacity_pos)
  unfold View.seq at hlt
  have hreach : ¬g.Reached c.capacity p 3 := by
    rintro (h | ⟨heq, hrank⟩)
    · revert hlt
      cases g.stage (p % c.capacity) <;> simp only [Stage.seq] <;> omega
    · rw [← heq] at hlt
      revert hlt hrank
      cases g.stage (p % c.capacity) <;> simp only [Stage.seq, Stage.rank] <;> omega
  refine ⟨?_, hreach⟩
  by_contra hne
  have hge := ho.turn_ge c.capacity_pos (p := p) (by omega)
  rcases Nat.lt_or_eq_of_le hge with h | h
  · exact hreach (.inl h)
  · rw [← h] at hord
    refine hreach (.inr ⟨h, ?_⟩)
    revert hord
    cases g.stage (p % c.capacity) <;> simp only [Stage.Ord, Stage.rank] <;> omega

/-- A call gives up only in the step of its own sequence load. -/
theorem advance_gives_up (hs : advance c s t pc = some s') (hret : s'.pcs t = .returned ret)
    (hfail : ret = .pushed false ∨ ret = .popped none) :
    (ret = .pushed false ∧ ∃ v pos, pc = .pushSeq v pos) ∨
      (ret = .popped none ∧ ∃ pos, pc = .popSeq pos) := by
  cases pc <;> simp only [advance] at hs
  case popMove pos =>
    obtain ⟨x, -, rfl⟩ := Option.map_eq_some_iff.mp hs
    simp [State.setPc] at hret
  case pushSeq v pos =>
    repeat' split at hs
    all_goals
      cases hs
      simp only [State.setPc, update_self, Pc.returned.injEq, reduceCtorEq] at hret
    exact .inl ⟨hret.symm, v, pos, rfl⟩
  case popSeq pos =>
    repeat' split at hs
    all_goals
      cases hs
      simp only [State.setPc, update_self, Pc.returned.injEq, reduceCtorEq] at hret
    exact .inr ⟨hret.symm, pos, rfl⟩
  all_goals
    repeat' split at hs
    all_goals
      cases hs <;> simp only [State.setPc, setCell, update_self, Pc.returned.injEq, reduceCtorEq] at hret
  all_goals
    subst hret
    simp at hfail

theorem step_gives_up {a : ℕ × Act T} (hs : step c s a = some s') (hbefore : s.pcs t ≠ .returned ret)
    (hret : s'.pcs t = .returned ret) : advance c s t (s.pcs t) = some s' := by
  obtain ⟨t', act⟩ := a
  obtain ⟨⟨pc, hpcs⟩, -⟩ := step_frame hs
  have htt : t = t' := by
    by_contra hne
    rw [hpcs, update_of_ne hne] at hret
    exact hbefore hret
  subst htt
  cases act <;> simp only [step] at hs
  case go => exact hs
  all_goals
    split at hs <;> cases hs <;> simp [State.setPc] at hret

/-- A push gives up when the cell of the current ticket is still at the ticket one lap back. -/
theorem push_gives_up (hi : Inv c s g) (ht : Timely c s) (hpc : s.pcs t = .pushSeq v pos)
    (hs : advance c s t (s.pcs t) = some s') (hret : s'.pcs t = .returned (.pushed false)) :
    pos = s.enqueuePos ∧ g.turn (s.enq % c.capacity) + c.capacity = s.enq := by
  obtain ⟨p, rfl, hb, hp⟩ := hi.okAt hpc
  have hlag := push_lag hi ht (t := t) (by rw [hpc]; rfl) (by rw [hpc]; rfl) hb
  rw [hpc, advance_pushSeq hi hp hlag] at hs
  obtain rfl := Option.some.inj hs
  simp only [State.setPc, update_self] at hret
  split at hret
  · cases hret
  · split at hret
    · next hlt =>
      obtain ⟨rfl, hturn⟩ := behind_push hi.order hp hlt
      exact ⟨hi.enq.symm, hturn⟩
    · cases hret

/-- A pop gives up when the current ticket is not published. -/
theorem pop_gives_up (hi : Inv c s g) (ht : Timely c s) (hpc : s.pcs t = .popSeq pos)
    (hs : advance c s t (s.pcs t) = some s') (hret : s'.pcs t = .returned (.popped none)) :
    pos = s.dequeuePos ∧ ¬g.Reached c.capacity s.deq 3 := by
  obtain ⟨p, rfl, hb, hp⟩ := hi.okAt hpc
  have hlag := pop_lag ht (t := t) (by rw [hpc]; rfl) (by rw [hpc]; rfl) hb
  rw [hpc, advance_popSeq hi hp hlag] at hs
  obtain rfl := Option.some.inj hs
  simp only [State.setPc, update_self] at hret
  split at hret
  · cases hret
  · split at hret
    · next hlt =>
      obtain ⟨rfl, hreach⟩ := behind_pop hi.order hp hlt
      exact ⟨hi.deq.symm, hreach⟩
    · cases hret

/-! ### A call that runs alone -/

/-- The number of cells that hold an element. -/
def liveCount (c : Cfg) (s : State T c.w) : ℕ :=
  ((List.range c.capacity).filter fun i => (s.cells i).storage.isSome).length

/-- Thread `t` makes `call` and then takes steps alone; `weak` says which are spurious failures. -/
def runAlone (c : Cfg) (s : State T c.w) (t : ℕ) (call : Act T) (weak : List Bool) :
    Option (State T c.w) :=
  run (step c) s ((t, call) :: weak.map fun b => (t, bif b then .spurious else .go))

/-- Where a call made in `s₀` stands in `x`, with nobody else moving. -/
def AloneAt (s₀ x : State T c.w) : Bool → Pc T c.w → Prop
  | true, .pushPos _ => x.enq = s₀.enq ∧ x.deq = s₀.deq
  | true, .pushSeq _ pos => x.enq = s₀.enq ∧ x.deq = s₀.deq ∧ pos = x.enqueuePos
  | true, .pushCas _ pos => x.enq = s₀.enq ∧ x.deq = s₀.deq ∧ pos = x.enqueuePos
  | true, .pushBuild _ _ => x.enq = s₀.enq + 1 ∧ x.deq = s₀.deq
  | true, .pushPublish _ _ => x.enq = s₀.enq + 1 ∧ x.deq = s₀.deq
  | true, .returned (.pushed true) => x.enq = s₀.enq + 1 ∧ x.deq = s₀.deq
  | true, .returned (.pushed false) => s₀.enq = s₀.deq + c.capacity
  | false, .popPos => x.enq = s₀.enq ∧ x.deq = s₀.deq
  | false, .popSeq pos => x.enq = s₀.enq ∧ x.deq = s₀.deq ∧ pos = x.dequeuePos
  | false, .popCas pos => x.enq = s₀.enq ∧ x.deq = s₀.deq ∧ pos = x.dequeuePos
  | false, .popMove _ => x.enq = s₀.enq ∧ x.deq = s₀.deq + 1
  | false, .popDestroy _ _ => x.enq = s₀.enq ∧ x.deq = s₀.deq + 1
  | false, .popRelease _ _ => x.enq = s₀.enq ∧ x.deq = s₀.deq + 1
  | false, .returned (.popped (some _)) => x.enq = s₀.enq ∧ x.deq = s₀.deq + 1
  | false, .returned (.popped none) => s₀.enq = s₀.deq
  | _, _ => False

structure Alone (s₀ : State T c.w) (t : ℕ) (push : Bool) (x : State T c.w) : Prop where
  others : ∀ t' ≠ t, (x.pcs t').inProgress = false
  began : x.began t = if push then s₀.enq else s₀.deq
  here : AloneAt s₀ x push (x.pcs t)

variable {s₀ x x' : State T c.w} {push : Bool}

theorem Alone.not_held (ha : Alone s₀ t push x) (hi : Inv c x g) (hfree : (x.pcs t).stage? = none)
    {i : ℕ} (hlt : i < c.capacity) : (g.stage i).held = false := by
  by_contra hh
  have hst := (hi.threads.held i hlt (Bool.eq_true_of_not_eq_false hh)).1
  by_cases ho : g.owner i = t
  · rw [ho, hfree] at hst
    cases hst
  · rw [stage?_of_not_inProgress (by rw [ha.others _ ho]; exact Bool.false_ne_true)] at hst
    cases hst

theorem AloneAt.lag (h : AloneAt s₀ x push pc) (hin : pc.inProgress = true) :
    pc.isPush = push ∧ x.enq ≤ s₀.enq + 1 ∧ x.deq ≤ s₀.deq + 1 := by
  cases push <;> cases pc <;>
    first
    | exact h.elim
    | exact absurd hin Bool.false_ne_true
    | (refine ⟨rfl, ?_⟩; simp only [AloneAt] at h; omega)

section

variable (ha : Alone s₀ t push x)
include ha

/-- A call that runs alone issues at most one ticket. -/
theorem Alone.timely : Timely c x := by
  intro t' hin
  have hcap := c.slack
  have htwo := c.two_le
  rcases eq_or_ne t' t with rfl | htt
  · obtain ⟨hpush, he, hd⟩ := ha.here.lag hin
    rw [ha.began, hpush]
    split <;> omega
  · rw [ha.others t' htt] at hin
    cases hin

theorem Alone.next (hpcs : x'.pcs = update x.pcs t pc) (hbegan : x'.began = x.began)
    (hhere : AloneAt s₀ x' push pc) : Alone s₀ t push x' := by
  refine ⟨fun t' htt => ?_, ?_, ?_⟩
  · rw [hpcs, update_of_ne htt]
    exact ha.others t' htt
  · rw [hbegan]
    exact ha.began
  · rw [hpcs, update_self]
    exact hhere

/-- Alone, the next push meets a cell ready for it, unless the queue is full. -/
theorem Alone.push_seq (hi : Inv c x g) (hfree : (x.pcs t).stage? = none) :
    g.seq (x.enq % c.capacity) = x.enq ∨
      g.seq (x.enq % c.capacity) < x.enq ∧ x.enq = x.deq + c.capacity := by
  have hcell := Nat.mod_lt x.enq c.capacity_pos
  have htwo := c.two_le
  have hnot := ha.not_held hi hfree hcell
  have hord := hi.order.ord _ hcell
  have hde := hi.order.deq_le
  have hed := hi.order.enq_le
  unfold View.seq
  revert hnot hord
  rcases hi.order.turn_enq c.capacity_pos with h | h <;> cases g.stage (x.enq % c.capacity) <;>
    simp only [Stage.held, Stage.Ord, Stage.seq, reduceCtorEq, IsEmpty.forall_iff] <;> omega

/-- Alone, the next pop meets a published cell, unless the queue is empty. -/
theorem Alone.pop_seq (hi : Inv c x g) (hfree : (x.pcs t).stage? = none) :
    g.seq (x.deq % c.capacity) = x.deq + 1 ∨ g.seq (x.deq % c.capacity) < x.deq + 1 ∧ x.enq = x.deq := by
  have hcell := Nat.mod_lt x.deq c.capacity_pos
  have htwo := c.two_le
  have hnot := ha.not_held hi hfree hcell
  have hord := hi.order.ord _ hcell
  have hde := hi.order.deq_le
  have hlo := hi.order.lo _ hcell
  unfold View.seq
  revert hnot hord
  rcases hi.order.turn_deq c.capacity_pos with h | h <;> cases g.stage (x.deq % c.capacity) <;>
    simp only [Stage.held, Stage.Ord, Stage.seq, reduceCtorEq, IsEmpty.forall_iff] <;> omega

end

/-- Steps a call still has to take when it runs alone. -/
def Pc.stepsLeft {w : ℕ} : Pc T w → ℕ
  | .pushPos _ => 5
  | .pushSeq _ _ => 4
  | .pushCas _ _ => 3
  | .pushBuild _ _ => 2
  | .pushPublish _ _ => 1
  | .popPos => 6
  | .popSeq _ => 5
  | .popCas _ => 4
  | .popMove _ => 3
  | .popDestroy _ _ => 2
  | .popRelease _ _ => 1
  | .idle => 0
  | .returned _ => 0

/-- STEP (push alone): the call can move, stays where `AloneAt` says and comes closer to its end. -/
theorem alone_push (ha : Alone s₀ t true x) (hi : Inv c x g) (hin : (x.pcs t).inProgress = true) :
    ∃ x', advance c x t (x.pcs t) = some x' ∧ Alone s₀ t true x' ∧
      (x'.pcs t).stepsLeft < (x.pcs t).stepsLeft := by
  have hhere := ha.here
  cases hpc : x.pcs t <;> rw [hpc] at hhere
  case pushPos v =>
    exact ⟨_, rfl, ha.next rfl rfl ⟨hhere.1, hhere.2, rfl⟩, by simp [State.setPc, Pc.stepsLeft]⟩
  case pushSeq v pos =>
    obtain ⟨he, hd, rfl⟩ := hhere
    have hb : x.began t ≤ x.enq := by rw [ha.began, if_pos rfl, he]
    have hlag := push_lag hi ha.timely hin (by rw [hpc]; rfl) hb
    have hadv := advance_pushSeq (t := t) (v := v) hi (le_refl x.enq) hlag
    rw [← hi.enq] at hadv
    refine ⟨_, hadv, ?_, ?_⟩ <;> rcases ha.push_seq hi (by rw [hpc]; rfl) with heq | ⟨hlt, hfull⟩
    · rw [if_pos heq]
      exact ha.next rfl rfl ⟨he, hd, rfl⟩
    · rw [if_neg hlt.ne, if_pos hlt]
      exact ha.next rfl rfl (show s₀.enq = s₀.deq + c.capacity by omega)
    · rw [if_pos heq]
      simp [State.setPc, Pc.stepsLeft]
    · rw [if_neg hlt.ne, if_pos hlt]
      simp [State.setPc, Pc.stepsLeft]
  case pushCas v pos =>
    obtain ⟨he, hd, rfl⟩ := hhere
    exact ⟨_, if_pos rfl, ha.next rfl rfl ⟨congrArg Nat.succ he, hd⟩, by simp [State.setPc, Pc.stepsLeft]⟩
  case pushBuild v pos =>
    exact ⟨_, rfl, ha.next rfl rfl hhere, by simp [State.setPc, Pc.stepsLeft]⟩
  case pushPublish v pos =>
    exact ⟨_, rfl, ha.next rfl rfl hhere, by simp [State.setPc, Pc.stepsLeft]⟩
  case idle => exact hhere.elim
  case returned => rw [hpc] at hin; cases hin
  all_goals exact hhere.elim

/-- STEP (pop alone): likewise; the cell it claimed holds an element, so the move is possible. -/
theorem alone_pop (ha : Alone s₀ t false x) (hi : Inv c x g) (hin : (x.pcs t).inProgress = true) :
    ∃ x', advance c x t (x.pcs t) = some x' ∧ Alone s₀ t false x' ∧
      (x'.pcs t).stepsLeft < (x.pcs t).stepsLeft := by
  have hhere := ha.here
  cases hpc : x.pcs t <;> rw [hpc] at hhere
  case popPos =>
    exact ⟨_, rfl, ha.next rfl rfl ⟨hhere.1, hhere.2, rfl⟩, by simp [State.setPc, Pc.stepsLeft]⟩
  case popSeq pos =>
    obtain ⟨he, hd, rfl⟩ := hhere
    have hb : x.began t ≤ x.deq := by rw [ha.began, if_neg Bool.false_ne_true, hd]
    have hlag := pop_lag ha.timely hin (by rw [hpc]; rfl) hb
    have hadv := advance_popSeq (t := t) hi (le_refl x.deq) hlag
    rw [← hi.deq] at hadv
    refine ⟨_, hadv, ?_, ?_⟩ <;> rcases ha.pop_seq hi (by rw [hpc]; rfl) with heq | ⟨hlt, hempty⟩
    · rw [if_pos heq]
      exact ha.next rfl rfl ⟨he, hd, rfl⟩
    · rw [if_neg hlt.ne, if_pos hlt]
      exact ha.next rfl rfl (show s₀.enq = s₀.deq by omega)
    · rw [if_pos heq]
      simp [State.setPc, Pc.stepsLeft]
    · rw [if_neg hlt.ne, if_pos hlt]
      simp [State.setPc, Pc.stepsLeft]
  case popCas pos =>
    obtain ⟨he, hd, rfl⟩ := hhere
    exact ⟨_, if_pos rfl, ha.next rfl rfl ⟨he, congrArg Nat.succ hd⟩, by simp [State.setPc, Pc.stepsLeft]⟩
  case popMove pos =>
    obtain ⟨v, hv⟩ := Option.isSome_iff_exists.mp (storage_of_holds hi (hi.okAt hpc))
    refine ⟨{ x.setPc t (.popDestroy pos v) with taken := x.taken ++ [(x.ticket t, v)] }, ?_,
      ha.next rfl rfl hhere, by simp [State.setPc, Pc.stepsLeft]⟩
    rw [advance, hv, Option.map_some]
  case popDestroy pos v =>
    exact ⟨_, rfl, ha.next rfl rfl hhere, by simp [State.setPc, Pc.stepsLeft]⟩
  case popRelease pos v =>
    exact ⟨_, rfl, ha.next rfl rfl hhere, by simp [State.setPc, Pc.stepsLeft]⟩
  case idle => exact hhere.elim
  case returned => rw [hpc] at hin; cases hin
  all_goals exact hhere.elim

theorem alone_advance (ha : Alone s₀ t push x) (hi : Inv c x g) (hin : (x.pcs t).inProgress = true) :
    ∃ x', advance c x t (x.pcs t) = some x' ∧ Alone s₀ t push x' ∧
      (x'.pcs t).stepsLeft < (x.pcs t).stepsLeft := by
  cases push
  · exact alone_pop ha hi hin
  · exact alone_push ha hi hin

theorem alone_step {weak : Bool} (ha : Alone s₀ t push x) (hr : Reach c x)
    (hs : step c x (t, bif weak then .spurious else .go) = some x') : Alone s₀ t push x' := by
  cases weak
  · obtain ⟨g, hi⟩ := hr.inv
    have hin : (x.pcs t).inProgress = true := by
      by_contra hno
      change advance c x t (x.pcs t) = some x' at hs
      cases hpc : x.pcs t <;> rw [hpc] at hs hno <;> first | exact hno rfl | cases hs
    obtain ⟨x'', hadv, ha', -⟩ := alone_advance ha hi hin
    obtain rfl : x'' = x' := Option.some.inj (hadv.symm.trans hs)
    exact ha'
  · have hhere := ha.here
    simp only [cond_true, step] at hs
    split at hs
    · next hpc =>
      rw [hpc] at hhere
      cases hs
      cases push
      · exact hhere.elim
      · exact ha.next rfl rfl ⟨hhere.1, hhere.2.1, rfl⟩
    · next hpc =>
      rw [hpc] at hhere
      cases hs
      cases push
      · exact ha.next rfl rfl ⟨hhere.1, hhere.2.1, rfl⟩
      · exact hhere.elim
    · cases hs

/-- RUN (alone): the steps of one thread keep `Alone`. -/
theorem alone_run : ∀ {weak : List Bool} {x x' : State T c.w}, Alone s₀ t push x → Reach c x →
    run (step c) x (weak.map fun b => (t, bif b then .spurious else .go)) = some x' →
    Reach c x' ∧ Alone s₀ t push x'
  | [], x, x', ha, hr, hrun => by
      obtain rfl : x = x' := Option.some.inj hrun
      exact ⟨hr, ha⟩
  | b :: weak, x, x'', ha, hr, hrun => by
      obtain ⟨x', hs, hrest⟩ := run_cons_some.mp hrun
      have ha' := alone_step ha hr hs
      exact alone_run ha' (.step _ hr hs ha'.timely) hrest

/-- Alone and without spurious failures the call returns, within `stepsLeft` steps. -/
theorem alone_returns : ∀ {n : ℕ} {x : State T c.w}, Alone s₀ t push x → Reach c x →
    (x.pcs t).stepsLeft ≤ n → ∃ m x' ret, run (step c) x ((List.replicate m false).map
        fun b => (t, bif b then .spurious else .go)) = some x' ∧ x'.pcs t = .returned ret
  | n, x, ha, hr, hn => by
      by_cases hin : (x.pcs t).inProgress = true
      · obtain ⟨g, hi⟩ := hr.inv
        obtain ⟨x', hs, ha', hlt⟩ := alone_advance ha hi hin
        obtain ⟨n, rfl⟩ : ∃ n', n = n' + 1 := ⟨n - 1, by omega⟩
        obtain ⟨m, x'', ret, hrun, hret⟩ :=
          alone_returns (n := n) ha' (.step (t, .go) hr hs ha'.timely) (by omega)
        refine ⟨m + 1, x'', ret, ?_, hret⟩
        exact run_cons_some.mpr ⟨x', hs, hrun⟩
      · have hhere := ha.here
        cases hpc : x.pcs t <;> rw [hpc] at hin hhere <;> first
          | exact ⟨0, x, _, rfl, hpc⟩
          | exact absurd rfl hin
          | (cases push <;> exact hhere.elim)

section

variable (hq : Quiescent s)
include hq

theorem Quiescent.alone_push (v : T) : Alone s t true
    { s.setPc t (.pushPos v) with began := update s.began t s.enq } := by
  refine ⟨fun t' htt => ?_, update_self .., ?_⟩
  · show (update s.pcs t _ t').inProgress = false
    rw [update_of_ne htt]
    exact hq t'
  · show AloneAt s _ true (update s.pcs t _ t)
    rw [update_self]
    exact ⟨rfl, rfl⟩

theorem Quiescent.alone_pop : Alone s t false
    { s.setPc t .popPos with began := update s.began t s.deq } := by
  refine ⟨fun t' htt => ?_, update_self .., ?_⟩
  · show (update s.pcs t _ t').inProgress = false
    rw [update_of_ne htt]
    exact hq t'
  · show AloneAt s _ false (update s.pcs t _ t)
    rw [update_self]
    exact ⟨rfl, rfl⟩

theorem Quiescent.tryPush (v : T) : step c s (t, .tryPush v) =
    some { s.setPc t (.pushPos v) with began := update s.began t s.enq } :=
  if_neg (by rw [hq t]; exact Bool.false_ne_true)

theorem Quiescent.tryPop : step c s (t, .tryPop) =
    some { s.setPc t .popPos with began := update s.began t s.deq } :=
  if_neg (by rw [hq t]; exact Bool.false_ne_true)

/-! ### Counting the elements -/

/-- With no call in progress the counters differ by the number of elements in the cells. -/
theorem Quiescent.liveCount (hi : Inv c s g) (ho : Owed s) : MpmcQueue.liveCount c s = s.enq - s.deq := by
  have hed := hi.order.enq_le
  have hperm : ((List.range c.capacity).filter fun i => (s.cells i).storage.isSome).Perm
      ((List.range (s.enq - s.deq)).map fun j => (s.deq + j) % c.capacity) := by
    refine (List.perm_ext_iff_of_nodup (List.nodup_range.filter _) ?_).mpr fun i => ?_
    · refine List.nodup_range.map_on fun j hj j' hj' h => ?_
      rw [List.mem_range] at hj hj'
      exact c.offset_inj (by omega) (by omega) h
    · rw [List.mem_filter, List.mem_range, List.mem_map]
      constructor
      · rintro ⟨hlt, hsome⟩
        obtain ⟨x, hx⟩ := Option.isSome_iff_exists.mp hsome
        obtain ⟨k, hlo, hhi, rfl, -⟩ := (hq.live_iff hi hlt x).mp hx
        exact ⟨k - s.deq, List.mem_range.mpr (by omega), by rw [Nat.add_sub_cancel' hlo]⟩
      · rintro ⟨j, hj, rfl⟩
        rw [List.mem_range] at hj
        have hcell := Nat.mod_lt (s.deq + j) c.capacity_pos
        obtain ⟨v, hv⟩ := hq.built_all ho (k := s.deq + j) (by omega)
        rw [(hq.live_iff hi hcell v).mpr ⟨_, by omega, by omega, rfl, hv⟩]
        exact ⟨hcell, rfl⟩
  rw [MpmcQueue.liveCount, hperm.length_eq, List.length_map, List.length_range]

end

theorem sizeApprox_eq (hi : Inv c s g) : sizeApprox c s = s.enq - s.deq := by
  have hcap := c.slack
  have hw : 0 < c.w := by
    by_contra h
    have := c.two_le
    rw [show c.w - 2 = 0 by omega] at hcap
    omega
  have hmono : 2 ^ (c.w - 2) ≤ 2 ^ (c.w - 1) := Nat.pow_le_pow_right (by decide) (by omega)
  have hed := hi.order.enq_le
  rw [sizeApprox, hi.deq, hi.enq]
  exact clampedIndexDistance_word hw hi.order.deq_le (by omega) (by omega)

theorem push_alone_iff (hq : Quiescent s) (h : Reach c s) {ok : Bool}
    (hrun : runAlone c s t (.tryPush v) weak = some s') (hret : s'.pcs t = .returned (.pushed ok)) :
    ok = false ↔ s.enq - s.deq = c.capacity := by
  obtain ⟨s₁, hs, hrest⟩ := run_cons_some.mp hrun
  rw [hq.tryPush] at hs
  obtain rfl := Option.some.inj hs
  have ha := hq.alone_push (t := t) v
  obtain ⟨hr, ha'⟩ := alone_run ha (.step _ h (hq.tryPush v) ha.timely) hrest
  have hhere := ha'.here
  obtain ⟨g, hi⟩ := hr.inv
  have hed := hi.order.enq_le
  have hN := c.capacity_pos
  rw [hret] at hhere
  cases ok <;> simp only [AloneAt] at hhere
  · simp only [true_iff]; omega
  · simp only [reduceCtorEq, false_iff]; omega

theorem pop_alone_iff (hq : Quiescent s) (h : Reach c s) {out : Option T}
    (hrun : runAlone c s t .tryPop weak = some s') (hret : s'.pcs t = .returned (.popped out)) :
    out = none ↔ s.enq - s.deq = 0 := by
  obtain ⟨s₁, hs, hrest⟩ := run_cons_some.mp hrun
  rw [hq.tryPop] at hs
  obtain rfl := Option.some.inj hs
  have ha := hq.alone_pop (t := t)
  obtain ⟨hr, ha'⟩ := alone_run ha (.step _ h hq.tryPop ha.timely) hrest
  have hhere := ha'.here
  obtain ⟨g, hi⟩ := hr.inv
  have hde := hi.order.deq_le
  rw [hret] at hhere
  cases out <;> simp only [AloneAt] at hhere
  · simp only [true_iff]; omega
  · simp only [reduceCtorEq, false_iff]; omega

theorem push_alone_returns (hq : Quiescent s) (h : Reach c s) (v : T) :
    ∃ n s' ok, runAlone c s t (.tryPush v) (List.replicate n false) = some s' ∧
      s'.pcs t = .returned (.pushed ok) := by
  have ha := hq.alone_push (t := t) v
  have hr : Reach c _ := .step _ h (hq.tryPush v) ha.timely
  obtain ⟨n, s', ret, hrun, hret⟩ := alone_returns ha hr (le_refl _)
  have hhere := (alone_run ha hr hrun).2.here
  rw [hret] at hhere
  cases ret with
  | pushed ok => exact ⟨n, s', ok, run_cons_some.mpr ⟨_, hq.tryPush v, hrun⟩, hret⟩
  | popped out => exact hhere.elim

theorem pop_alone_returns (hq : Quiescent s) (h : Reach c s) :
    ∃ n s' out, runAlone c s t .tryPop (List.replicate n false) = some s' ∧
      s'.pcs t = .returned (.popped out) := by
  have ha := hq.alone_pop (t := t)
  have hr : Reach c _ := .step _ h hq.tryPop ha.timely
  obtain ⟨n, s', ret, hrun, hret⟩ := alone_returns ha hr (le_refl _)
  have hhere := (alone_run ha hr hrun).2.here
  rw [hret] at hhere
  cases ret with
  | pushed ok => exact hhere.elim
  | popped out => exact ⟨n, s', out, run_cons_some.mpr ⟨_, hq.tryPop, hrun⟩, hret⟩

/-- CORRECT: a call gives up only in the step of a sequence load made with the current ticket, for a
    push while the element a lap back is not released, for a pop while the ticket is not published.
    A call that runs alone fails exactly on a full or empty queue and does return, and then
    `size_approx()` is the number of elements. -/
theorem failure_exact (s : State T c.w) (h : Reach c s) :
    (∀ t a s', step c s a = some s' → s.pcs t ≠ .returned (.pushed false) →
      s'.pcs t = .returned (.pushed false) →
      ∃ v, s.pcs t = .pushSeq v s.enqueuePos ∧ s.enqueuePos = word c.w s.enq ∧
        c.capacity ≤ s.enq ∧ s.enq - c.capacity ∉ s.released) ∧
    (∀ t a s', step c s a = some s' → s.pcs t ≠ .returned (.popped none) →
      s'.pcs t = .returned (.popped none) →
      s.pcs t = .popSeq s.dequeuePos ∧ s.dequeuePos = word c.w s.deq ∧ s.deq ∉ s.published) ∧
    (Quiescent s → sizeApprox c s = liveCount c s ∧ ∀ t,
      (∀ v weak s' ok, runAlone c s t (.tryPush v) weak = some s' →
        s'.pcs t = .returned (.pushed ok) → (ok = false ↔ liveCount c s = c.capacity)) ∧
      (∀ weak s' out, runAlone c s t .tryPop weak = some s' →
        s'.pcs t = .returned (.popped out) → (out = none ↔ liveCount c s = 0)) ∧
      (∀ v, ∃ n s' ok, runAlone c s t (.tryPush v) (List.replicate n false) = some s' ∧
        s'.pcs t = .returned (.pushed ok)) ∧
      (∃ n s' out, runAlone c s t .tryPop (List.replicate n false) = some s' ∧
        s'.pcs t = .returned (.popped out))) := by
  obtain ⟨g, hi⟩ := h.inv
  refine ⟨fun t a s' hs hbefore hafter => ?_, fun t a s' hs hbefore hafter => ?_, fun hq => ?_⟩
  · have hadv := step_gives_up hs hbefore hafter
    obtain ⟨-, v, pos, hpc⟩ | ⟨hne, -⟩ := advance_gives_up hadv hafter (.inl rfl)
    · obtain ⟨rfl, hturn⟩ := push_gives_up hi h.timely hpc hadv hafter
      refine ⟨v, hpc, hi.enq, by omega, fun hmem => ?_⟩
      -- the cell still serves the ticket a lap back, which a release would have passed
      have hlt := hi.logs.released_lt _ hmem
      have hmod := hi.order.mod _ (Nat.mod_lt s.enq c.capacity_pos)
      rw [show s.enq - c.capacity = g.turn (s.enq % c.capacity) by omega, hmod] at hlt
      exact lt_irrefl _ hlt
    · cases hne
  · have hadv := step_gives_up hs hbefore hafter
    obtain ⟨hne, -⟩ | ⟨-, pos, hpc⟩ := advance_gives_up hadv hafter (.inr rfl)
    · cases hne
    · obtain ⟨rfl, hreach⟩ := pop_gives_up hi h.timely hpc hadv hafter
      exact ⟨hpc, hi.deq, fun hmem => hreach (hi.logs.published_reached _ hmem)⟩
  · rw [hq.liveCount hi h.owed]
    exact ⟨sizeApprox_eq hi, fun t => ⟨fun v weak s' ok => push_alone_iff hq h,
      fun weak s' out => pop_alone_iff hq h, push_alone_returns hq h, pop_alone_returns hq h⟩⟩

/-- A producer has claimed the first ticket and stalls before building; a pop is about to look. -/
def stalledRun : List (ℕ × Act ℕ) :=
  [(0, .tryPush 7), (0, .go), (0, .go), (0, .go), (1, .tryPop), (1, .go)]

theorem failure_exact_stalledRun : ∃ s s', run (step cfg2) (init cfg2) stalledRun = some s ∧
    step cfg2 s (1, .go) = some s' ∧ s'.pcs 1 = .returned (.popped none) ∧ s.enq = 1 ∧
    s.deq ∉ s.published :=
  ⟨_, _, rfl, rfl, rfl, rfl,
    ((failure_exact _ (reach_run stalledRun .init rfl (by decide) (by decide))).2.1
      1 (1, .go) _ rfl (fun h => absurd (congrArg Pc.inProgress h) (by decide)) rfl).2.2⟩

end Metl.MpmcQueue
