import Metl.Queues.MpmcQueue

/-! The ticket invariant of `metl::mpmc_queue`.

    Every cell is, at every moment, at one stage of one ticket: its `turn`. Producers and consumers
    carry the cell through the seven stages below and the release hands it to the ticket one lap
    later, so the true sequence number of a cell only ever grows. A thread's stale ticket can lag
    behind the counters, but never so far that the modular comparison misreads it.

        vacant ──▶ building ──▶ publishing ──▶ full ──▶ moving ──▶ destroying ──▶ releasing
          ▲                                                                          │
          └────────────────────────────── turn + capacity ◀──────────────────────────┘ -/

namespace Metl.MpmcQueue
open Metl.Schemes Metl.IndexDistance Function

inductive Stage where
  | vacant | building | publishing | full | moving | destroying | releasing
  deriving DecidableEq

namespace Stage

def rank : Stage → ℕ
  | .vacant => 0
  | .building => 1
  | .publishing => 2
  | .full => 3
  | .moving => 4
  | .destroying => 5
  | .releasing => 6

/-- A thread is at work on the cell. -/
def held : Stage → Bool
  | .vacant => false
  | .full => false
  | _ => true

/-- An element lives in the cell. -/
def stored : Stage → Bool
  | .publishing => true
  | .full => true
  | .moving => true
  | .destroying => true
  | _ => false

/-- The true sequence number of a cell at this stage of ticket `k`. -/
def seq (k : ℕ) : Stage → ℕ
  | .vacant => k
  | .building => k
  | .publishing => k
  | _ => k + 1

/-- Where ticket `k` stands against the two counters while its cell is at this stage. -/
def Ord (E D k : ℕ) : Stage → Prop
  | .vacant => E ≤ k
  | .building => D ≤ k ∧ k < E
  | .publishing => D ≤ k ∧ k < E
  | .full => D ≤ k ∧ k < E
  | .moving => k < D
  | .destroying => k < D
  | .releasing => k < D

end Stage

/-- The ghost view of the cells: the ticket each one serves, its stage, and the thread at work. -/
structure View where
  turn : ℕ → ℕ
  stage : ℕ → Stage
  owner : ℕ → ℕ

namespace View

def set (g : View) (i k : ℕ) (st : Stage) (t : ℕ) : View where
  turn := update g.turn i k
  stage := update g.stage i st
  owner := update g.owner i t

def seq (g : View) (i : ℕ) : ℕ := (g.stage i).seq (g.turn i)

/-- The owner of ticket `k` has brought its cell to a stage of rank `r` at least. -/
def Reached (N : ℕ) (g : View) (k r : ℕ) : Prop :=
  k < g.turn (k % N) ∨ k = g.turn (k % N) ∧ r ≤ (g.stage (k % N)).rank

variable {g : View} {i j k t : ℕ} {st : Stage}

@[simp] theorem set_turn_self : (g.set i k st t).turn i = k := update_self ..
@[simp] theorem set_stage_self : (g.set i k st t).stage i = st := update_self ..
@[simp] theorem set_owner_self : (g.set i k st t).owner i = t := update_self ..

theorem set_turn_of_ne (h : j ≠ i) : (g.set i k st t).turn j = g.turn j :=
  update_of_ne h ..
theorem set_stage_of_ne (h : j ≠ i) : (g.set i k st t).stage j = g.stage j :=
  update_of_ne h ..
theorem set_owner_of_ne (h : j ≠ i) : (g.set i k st t).owner j = g.owner j :=
  update_of_ne h ..

/-- Progress of a cell: a later ticket, or a later stage of the same one. -/
def Progress (g : View) (i k : ℕ) (st : Stage) : Prop :=
  g.turn i < k ∨ g.turn i = k ∧ (g.stage i).rank ≤ st.rank

theorem reached_set {N r k' : ℕ} (hp : g.Progress i k st) (h : g.Reached N k' r) :
    (g.set i k st t).Reached N k' r := by
  unfold Reached at h ⊢
  by_cases hi : k' % N = i
  · rw [hi] at h ⊢
    rw [set_turn_self, set_stage_self]
    rcases hp with hlt | ⟨heq, hrank⟩
    · rcases h with h | ⟨h, -⟩ <;> left <;> omega
    · rcases h with h | ⟨h, hr⟩
      · left; omega
      · right; exact ⟨by omega, hr.trans hrank⟩
  · rw [set_turn_of_ne hi, set_stage_of_ne hi]
    exact h

theorem seq_set_le (hp : g.Progress i k st) (j : ℕ) : g.seq j ≤ (g.set i k st t).seq j := by
  unfold seq
  rcases eq_or_ne j i with rfl | hj
  · rw [set_turn_self, set_stage_self]
    rcases hp with hlt | ⟨heq, hrank⟩
    · cases g.stage j <;> cases st <;> simp only [Stage.seq] <;> omega
    · revert hrank
      cases g.stage j <;> cases st <;> simp only [Stage.seq, Stage.rank] <;> omega
  · rw [set_turn_of_ne hj, set_stage_of_ne hj]

end View

/-! ### The two counters and the turns -/

/-- `E` and `D` tickets were issued to producers and consumers of a queue of `N` cells. -/
structure Order (N E D : ℕ) (g : View) : Prop where
  deq_le : D ≤ E
  enq_le : E ≤ D + N
  mod : ∀ i < N, g.turn i % N = i
  lo : ∀ i < N, E ≤ g.turn i + N
  hi : ∀ i < N, g.turn i < D + N
  ord : ∀ i < N, (g.stage i).Ord E D (g.turn i)

section Order
variable {N E D i k t : ℕ} {g : View} {st : Stage}

section

variable (ho : Order N E D g)
include ho

/-- Change one cell; the others keep their turns and must still fit the counters. -/
theorem Order.set {E' D' : ℕ} (hi : i < N) (hD : D ≤ D') (hde : D' ≤ E') (hed : E' ≤ D' + N)
    (hk : k % N = i) (hlo : E' ≤ k + N) (hhi : k < D' + N) (hord : st.Ord E' D' k)
    (hothers : ∀ j < N, j ≠ i → E' ≤ g.turn j + N ∧ (g.stage j).Ord E' D' (g.turn j)) :
    Order N E' D' (g.set i k st t) := by
  refine ⟨hde, hed, fun j hj => ?_, fun j hj => ?_, fun j hj => ?_, fun j hj => ?_⟩ <;>
    by_cases hji : j = i
  · subst hji; rw [View.set_turn_self]; exact hk
  · rw [View.set_turn_of_ne hji]; exact ho.mod j hj
  · subst hji; rw [View.set_turn_self]; exact hlo
  · rw [View.set_turn_of_ne hji]; exact (hothers j hj hji).1
  · subst hji; rw [View.set_turn_self]; exact hhi
  · rw [View.set_turn_of_ne hji]; exact (ho.hi j hj).trans_le (by omega)
  · subst hji; rw [View.set_turn_self, View.set_stage_self]; exact hord
  · rw [View.set_turn_of_ne hji, View.set_stage_of_ne hji]; exact (hothers j hj hji).2

/-- A stage change within one ticket, against unchanged counters. -/
theorem Order.setStage (hi : i < N) (hord : st.Ord E D (g.turn i)) :
    Order N E D (g.set i (g.turn i) st t) :=
  ho.set hi (le_refl _) ho.deq_le ho.enq_le (ho.mod i hi) (ho.lo i hi) (ho.hi i hi) hord
    fun j hj _ => ⟨ho.lo j hj, ho.ord j hj⟩

/-- Handing a released cell to the ticket one lap later. -/
theorem Order.recycle (hi : i < N) (hk : g.turn i < D) :
    Order N E D (g.set i (g.turn i + N) .vacant t) := by
  have hlo := ho.lo i hi
  refine ho.set hi (le_refl _) ho.deq_le ho.enq_le ?_ (by omega) (by omega) hlo
    fun j hj _ => ⟨ho.lo j hj, ho.ord j hj⟩
  rw [Nat.add_mod_right, ho.mod i hi]

/-- A cell whose turn is the next enqueue ticket is vacant, and the only one at that ticket. -/
theorem Order.claimPush (hi : i < N) (hk : g.turn i = E) :
    Order N (E + 1) D (g.set i (g.turn i) .building t) := by
  have hhi := ho.hi i hi
  have hde := ho.deq_le
  refine ho.set hi (le_refl _) (by omega) (by omega) (ho.mod i hi) (by omega) hhi
    ⟨by omega, by omega⟩ fun j hj hji => ?_
  have hne : ∀ m, m % N = g.turn j % N → m ≠ E := by
    rintro m hm rfl
    rw [ho.mod j hj, ← hk, ho.mod i hi] at hm
    exact hji hm.symm
  have h1 : g.turn j ≠ E := hne _ rfl
  have h2 : g.turn j + N ≠ E := hne _ (Nat.add_mod_right ..)
  have hlo := ho.lo j hj
  have hord := ho.ord j hj
  refine ⟨by omega, ?_⟩
  revert hord
  cases g.stage j <;> simp only [Stage.Ord] <;> omega

/-- A cell whose turn is the next dequeue ticket is no longer counted as queued. -/
theorem Order.claimPop (hi : i < N) (hk : g.turn i = D) (hE : D < E) :
    Order N E (D + 1) (g.set i (g.turn i) .moving t) := by
  have hlo := ho.lo i hi
  have hed := ho.enq_le
  refine ho.set hi (Nat.le_succ _) hE (by omega) (ho.mod i hi) hlo (by omega)
    (show g.turn i < D + 1 by omega) fun j hj hji => ⟨ho.lo j hj, ?_⟩
  have hne : g.turn j ≠ D := by
    intro hm
    have hmod := ho.mod j hj
    rw [hm, ← hk, ho.mod i hi] at hmod
    exact hji hmod.symm
  have hord := ho.ord j hj
  revert hord
  cases g.stage j <;> simp only [Stage.Ord] <;> omega

/-- The cell of the next enqueue ticket waits for it, or still serves the ticket one lap before. -/
theorem Order.turn_enq (hN : 0 < N) : g.turn (E % N) = E ∨ g.turn (E % N) + N = E := by
  have hi := Nat.mod_lt E hN
  have hhi := ho.hi _ hi
  have hde := ho.deq_le
  exact lap_cases (ho.mod _ hi) (ho.lo _ hi) (by omega)

/-- The cell of the next dequeue ticket serves it, or still serves the ticket one lap before. -/
theorem Order.turn_deq (hN : 0 < N) : g.turn (D % N) = D ∨ g.turn (D % N) + N = D := by
  have hi := Nat.mod_lt D hN
  have hlo := ho.lo _ hi
  have hde := ho.deq_le
  exact lap_cases (ho.mod _ hi) (by omega) (ho.hi _ hi)

/-- Once a later enqueue ticket was issued, the cell of ticket `p` has reached it. -/
theorem Order.turn_ge (hN : 0 < N) {p : ℕ} (hp : p < E) : p ≤ g.turn (p % N) := by
  have hi := Nat.mod_lt p hN
  have hlo := ho.lo _ hi
  by_contra hlt
  rcases lap_cases (N := N) (ho.mod _ hi) (by omega) (by omega) with heq | heq <;> omega

theorem Order.seq_bounds (hi : i < N) : E ≤ g.seq i + N ∧ g.seq i ≤ D + N := by
  have hlo := ho.lo i hi
  have hhi := ho.hi i hi
  unfold View.seq
  cases g.stage i <;> simp only [Stage.seq] <;> omega

end

end Order

/-! ### Threads, cells and logs -/

variable {T : Type*} (c : Cfg)

/-- The stage at which a thread with this program counter holds the cell of its ticket. -/
def Pc.stage? {w : ℕ} : Pc T w → Option Stage
  | .pushBuild _ _ => some .building
  | .pushPublish _ _ => some .publishing
  | .popMove _ => some .moving
  | .popDestroy _ _ => some .destroying
  | .popRelease _ _ => some .releasing
  | _ => none

/-- Thread `t` holds the cell of ticket `k` at stage `st`. -/
def Holds (g : View) (t k : ℕ) (st : Stage) (pos : BitVec c.w) : Prop :=
  pos = word c.w k ∧ g.turn (k % c.capacity) = k ∧ g.stage (k % c.capacity) = st ∧
    g.owner (k % c.capacity) = t

/-- What a program counter promises: a local ticket is a counter value read since the call began
    (`b` tickets ago on its side), and a ticket the comparison matched stays matched. -/
def ThreadOk (g : View) (E D b k t : ℕ) : Pc T c.w → Prop
  | .idle => True
  | .returned _ => True
  | .pushPos _ => b ≤ E
  | .pushSeq _ pos => ∃ p, pos = word c.w p ∧ b ≤ p ∧ p ≤ E
  | .pushCas _ pos => ∃ p, pos = word c.w p ∧ b ≤ p ∧ p ≤ E ∧ p ≤ g.seq (p % c.capacity)
  | .pushBuild _ pos => Holds c g t k .building pos
  | .pushPublish _ pos => Holds c g t k .publishing pos
  | .popPos => b ≤ D
  | .popSeq pos => ∃ p, pos = word c.w p ∧ b ≤ p ∧ p ≤ D
  | .popCas pos => ∃ p, pos = word c.w p ∧ b ≤ p ∧ p ≤ D ∧ p + 1 ≤ g.seq (p % c.capacity)
  | .popMove pos => Holds c g t k .moving pos
  | .popDestroy pos _ => Holds c g t k .destroying pos
  | .popRelease pos _ => Holds c g t k .releasing pos

structure Threads (s : State T c.w) (g : View) : Prop where
  ok : ∀ t, ThreadOk c g s.enq s.deq (s.began t) (s.ticket t) t (s.pcs t)
  held : ∀ i < c.capacity, (g.stage i).held = true →
    (s.pcs (g.owner i)).stage? = some (g.stage i) ∧ s.ticket (g.owner i) = g.turn i

structure Cells (cells : ℕ → Cell T c.w) (built : List (ℕ × T)) (g : View) : Prop where
  sequence : ∀ i < c.capacity, (cells i).sequence = word c.w (g.seq i)
  live : ∀ i < c.capacity, (g.stage i).stored = true →
    ∃ v, (cells i).storage = some v ∧ (g.turn i, v) ∈ built
  dead : ∀ i < c.capacity, (g.stage i).stored = false → (cells i).storage = none

/-- Each log holds a ticket at most once, and only after its owner reached the stage logged. -/
structure Logs (N : ℕ) (built : List (ℕ × T)) (published : List ℕ) (taken : List (ℕ × T))
    (released : List ℕ) (g : View) : Prop where
  built_nodup : (built.map Prod.fst).Nodup
  built_reached : ∀ e ∈ built, g.Reached N e.1 2
  published_reached : ∀ k ∈ published, g.Reached N k 3
  taken_nodup : (taken.map Prod.fst).Nodup
  taken_reached : ∀ e ∈ taken, g.Reached N e.1 5
  taken_built : ∀ e ∈ taken, e ∈ built
  released_lt : ∀ k ∈ released, k < g.turn (k % N)

structure Inv (s : State T c.w) (g : View) : Prop where
  enq : s.enqueuePos = word c.w s.enq
  deq : s.dequeuePos = word c.w s.deq
  order : Order c.capacity s.enq s.deq g
  threads : Threads c s g
  cells : Cells c s.cells s.built g
  logs : Logs c.capacity s.built s.published s.taken s.released g

variable {c} {s s' : State T c.w} {g : View} {t i k : ℕ} {st : Stage}

/-- A promise survives larger counters and any change of a cell the thread does not hold. -/
theorem ThreadOk.mono {E D E' D' b k k' t t' : ℕ} {pc : Pc T c.w}
    (h : ThreadOk c g E D b k t pc) (hE : E ≤ E') (hD : D ≤ D') (hp : g.Progress i k' st)
    (hne : ∀ st', pc.stage? = some st' → k % c.capacity ≠ i) :
    ThreadOk c (g.set i k' st t') E' D' b k t pc := by
  have hseq := View.seq_set_le (t := t') hp
  have hold : ∀ st' pos, pc.stage? = some st' → Holds c g t k st' pos →
      Holds c (g.set i k' st t') t k st' pos := by
    rintro st' pos hpc ⟨h1, h2, h3, h4⟩
    have hki := hne st' hpc
    refine ⟨h1, ?_, ?_, ?_⟩
    · rw [View.set_turn_of_ne hki]; exact h2
    · rw [View.set_stage_of_ne hki]; exact h3
    · rw [View.set_owner_of_ne hki]; exact h4
  cases pc with
  | idle => trivial
  | returned r => trivial
  | pushPos v => exact le_trans h hE
  | popPos => exact le_trans h hD
  | pushSeq v pos =>
    obtain ⟨p, h1, h2, h3⟩ := h
    exact ⟨p, h1, h2, h3.trans hE⟩
  | popSeq pos =>
    obtain ⟨p, h1, h2, h3⟩ := h
    exact ⟨p, h1, h2, h3.trans hD⟩
  | pushCas v pos =>
    obtain ⟨p, h1, h2, h3, h4⟩ := h
    exact ⟨p, h1, h2, h3.trans hE, h4.trans (hseq _)⟩
  | popCas pos =>
    obtain ⟨p, h1, h2, h3, h4⟩ := h
    exact ⟨p, h1, h2, h3.trans hD, h4.trans (hseq _)⟩
  | pushBuild v pos => exact hold _ _ rfl h
  | pushPublish v pos => exact hold _ _ rfl h
  | popMove pos => exact hold _ _ rfl h
  | popDestroy pos x => exact hold _ _ rfl h
  | popRelease pos x => exact hold _ _ rfl h

/-- The cell a thread holds is the one of its ticket. -/
theorem Threads.holds (ht : Threads c s g) {st' : Stage} (hst : (s.pcs t).stage? = some st') :
    ∃ pos, Holds c g t (s.ticket t) st' pos := by
  have hok := ht.ok t
  cases hpc : s.pcs t <;> rw [hpc] at hst hok <;> simp only [Pc.stage?, reduceCtorEq] at hst
  all_goals
    obtain rfl := Option.some.inj hst
    exact ⟨_, hok⟩

/-- STEP (threads): thread `t` moves the cell of ticket `k`, which no other thread holds. -/
theorem Threads.move {k' : ℕ} {pc : Pc T c.w} (ht : Threads c s g) (hi : i = k % c.capacity)
    (hmod : ∀ j < c.capacity, g.turn j % c.capacity = j)
    (hpcs : s'.pcs = update s.pcs t pc) (hbegan : s'.began = s.began)
    (hticket : s'.ticket = update s.ticket t k)
    (hE : s.enq ≤ s'.enq) (hD : s.deq ≤ s'.deq) (hp : g.Progress i k' st)
    -- the cell was free, or already held by this thread, which holds no other
    (hfree : (g.stage i).held = true → g.owner i = t)
    (hmine : ∀ st', (s.pcs t).stage? = some st' → s.ticket t % c.capacity = i)
    (hnew : ThreadOk c (g.set i k' st t) s'.enq s'.deq (s.began t) k t pc)
    (hheld : st.held = true → pc.stage? = some st ∧ k = k') :
    Threads c s' (g.set i k' st t) := by
  refine ⟨fun t' => ?_, fun j hj hjh => ?_⟩
  · rw [hpcs, hbegan, hticket]
    rcases eq_or_ne t' t with rfl | htt
    · rw [update_self, update_self]
      exact hnew
    · rw [update_of_ne htt, update_of_ne htt]
      refine (ht.ok t').mono hE hD hp fun st' hst hcell => ?_
      -- a cell held by `t'` is not the cell that moved
      obtain ⟨pos, -, -, hstage, howner⟩ := ht.holds hst
      rw [hcell] at hstage howner
      have hh : (g.stage i).held = true := by
        rw [hstage]
        cases hpc : s.pcs t' <;> rw [hpc] at hst <;>
          simp only [Pc.stage?, Option.some.injEq, reduceCtorEq] at hst <;> subst hst <;> rfl
      exact htt (howner.symm.trans (hfree hh))
  · rcases eq_or_ne j i with rfl | hji
    · rw [View.set_stage_self] at hjh ⊢
      rw [View.set_owner_self, View.set_turn_self, hpcs, hticket, update_self, update_self]
      exact hheld hjh
    · rw [View.set_stage_of_ne hji] at hjh ⊢
      rw [View.set_owner_of_ne hji, View.set_turn_of_ne hji, hpcs, hticket]
      obtain ⟨h1, h2⟩ := ht.held j hj hjh
      have hne : g.owner j ≠ t := by
        intro ho
        rw [ho] at h1 h2
        have hcell := hmine _ h1
        rw [h2, hmod j hj] at hcell
        exact hji hcell
      rw [update_of_ne hne, update_of_ne hne]
      exact ⟨h1, h2⟩

/-- STEP (cells): cell `i` becomes `x`, and the log of built elements can only grow. -/
theorem Cells.move {cells : ℕ → Cell T c.w} {built built' : List (ℕ × T)}
    (hc : Cells c cells built g) {x : Cell T c.w} (hbuilt : built ⊆ built')
    (hseq : x.sequence = word c.w (st.seq k))
    (hlive : st.stored = true → ∃ v, x.storage = some v ∧ (k, v) ∈ built')
    (hdead : st.stored = false → x.storage = none) :
    Cells c (update cells i x) built' (g.set i k st t) := by
  refine ⟨fun j hj => ?_, fun j hj hst => ?_, fun j hj hst => ?_⟩ <;> rcases eq_or_ne j i with rfl | hji
  · rw [update_self, hseq, View.seq, View.set_stage_self, View.set_turn_self]
  · rw [update_of_ne hji, hc.sequence j hj, View.seq, View.seq, View.set_stage_of_ne hji,
      View.set_turn_of_ne hji]
  · rw [View.set_stage_self] at hst
    rw [update_self, View.set_turn_self]
    exact hlive hst
  · rw [View.set_stage_of_ne hji] at hst
    rw [update_of_ne hji, View.set_turn_of_ne hji]
    obtain ⟨v, hv, hmem⟩ := hc.live j hj hst
    exact ⟨v, hv, hbuilt hmem⟩
  · rw [View.set_stage_self] at hst
    rw [update_self]
    exact hdead hst
  · rw [View.set_stage_of_ne hji] at hst
    rw [update_of_ne hji]
    exact hc.dead j hj hst

/-- STEP (cells): a stage change that leaves the cell as it is. -/
theorem Cells.keep {cells : ℕ → Cell T c.w} {built : List (ℕ × T)} (hc : Cells c cells built g)
    (hi : i < c.capacity) (hturn : g.turn i = k) (hseq : g.seq i = st.seq k)
    (hstored : (g.stage i).stored = st.stored) : Cells c cells built (g.set i k st t) := by
  rw [← update_eq_self i cells]
  refine hc.move (List.Subset.refl _) ?_ (fun h => ?_) fun h => ?_
  · rw [hc.sequence i hi, hseq]
  · rw [← hturn]
    exact hc.live i hi (hstored.trans h)
  · exact hc.dead i hi (hstored.trans h)

section Logs
variable {N : ℕ} {built taken : List (ℕ × T)} {published released : List ℕ}

section

variable (hl : Logs N built published taken released g)
include hl

/-- STEP (logs): the progress of a cell keeps every log entry justified. -/
theorem Logs.move (hp : g.Progress i k st) : Logs N built published taken released (g.set i k st t) := by
  refine ⟨hl.built_nodup, fun e he => View.reached_set hp (hl.built_reached e he),
    fun k' hk' => View.reached_set hp (hl.published_reached k' hk'), hl.taken_nodup,
    fun e he => View.reached_set hp (hl.taken_reached e he), hl.taken_built, fun k' hk' => ?_⟩
  have hlt := hl.released_lt k' hk'
  by_cases hi : k' % N = i
  · rw [hi] at hlt ⊢
    rw [View.set_turn_self]
    rcases hp with hp | ⟨hp, -⟩ <;> omega
  · rw [View.set_turn_of_ne hi]
    exact hlt

theorem Logs.addBuilt (v : T) (hfresh : ∀ e ∈ built, e.1 ≠ k) (hreach : g.Reached N k 2) :
    Logs N (built ++ [(k, v)]) published taken released g := by
  refine ⟨?_, fun e he => ?_, hl.published_reached, hl.taken_nodup, hl.taken_reached,
    fun e he => List.mem_append_left _ (hl.taken_built e he), hl.released_lt⟩
  · rw [List.map_append, List.map_singleton, List.nodup_append]
    refine ⟨hl.built_nodup, List.nodup_singleton _, fun a ha b hb => ?_⟩
    obtain ⟨e, he, rfl⟩ := List.mem_map.mp ha
    rw [List.mem_singleton] at hb
    exact hb ▸ hfresh e he
  · rcases List.mem_append.mp he with he | he
    · exact hl.built_reached e he
    · rw [List.mem_singleton] at he
      exact he ▸ hreach

theorem Logs.addPublished (hreach : g.Reached N k 3) :
    Logs N built (published ++ [k]) taken released g := by
  refine ⟨hl.built_nodup, hl.built_reached, fun k' hk' => ?_, hl.taken_nodup, hl.taken_reached,
    hl.taken_built, hl.released_lt⟩
  rcases List.mem_append.mp hk' with hk' | hk'
  · exact hl.published_reached k' hk'
  · rw [List.mem_singleton] at hk'
    exact hk' ▸ hreach

theorem Logs.addTaken {x : T} (hfresh : ∀ e ∈ taken, e.1 ≠ k) (hreach : g.Reached N k 5)
    (hbuilt : (k, x) ∈ built) : Logs N built published (taken ++ [(k, x)]) released g := by
  refine ⟨hl.built_nodup, hl.built_reached, hl.published_reached, ?_, fun e he => ?_,
    fun e he => ?_, hl.released_lt⟩
  · rw [List.map_append, List.map_singleton, List.nodup_append]
    refine ⟨hl.taken_nodup, List.nodup_singleton _, fun a ha b hb => ?_⟩
    obtain ⟨e, he, rfl⟩ := List.mem_map.mp ha
    rw [List.mem_singleton] at hb
    exact hb ▸ hfresh e he
  · rcases List.mem_append.mp he with he | he
    · exact hl.taken_reached e he
    · rw [List.mem_singleton] at he
      exact he ▸ hreach
  · rcases List.mem_append.mp he with he | he
    · exact hl.taken_built e he
    · rw [List.mem_singleton] at he
      exact he ▸ hbuilt

theorem Logs.addReleased (hlt : k < g.turn (k % N)) :
    Logs N built published taken (released ++ [k]) g := by
  refine ⟨hl.built_nodup, hl.built_reached, hl.published_reached, hl.taken_nodup, hl.taken_reached,
    hl.taken_built, fun k' hk' => ?_⟩
  rcases List.mem_append.mp hk' with hk' | hk'
  · exact hl.released_lt k' hk'
  · rw [List.mem_singleton] at hk'
    exact hk' ▸ hlt

end

end Logs

end Metl.MpmcQueue
