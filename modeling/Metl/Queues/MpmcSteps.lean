import Metl.Queues.MpmcInvariant

/-! Every step of `metl::mpmc_queue` preserves the ticket invariant.

    Loads and lost exchanges only move a program counter; the seven other steps move one cell to its
    next stage. The comparison of a possibly stale ticket is exact because a timely call reads its
    ticket at most `2 ^ (w - 2)` issues ago and the sequence is within one lap of the counter. -/

namespace Metl.MpmcQueue
open Metl.Schemes Metl.IndexDistance Function

variable {T : Type*} {c : Cfg} {s s' : State T c.w} {g : View} {t : ℕ}

def view₀ : View := ⟨id, fun _ => .vacant, fun _ => 0⟩

theorem inv_init : Inv c (init c : State T c.w) view₀ := by
  refine ⟨rfl, rfl, ⟨le_refl _, Nat.zero_le _, fun i hi => Nat.mod_eq_of_lt hi,
    fun i _ => Nat.zero_le _, fun i hi => by simpa [view₀, init] using hi, fun i _ => Nat.zero_le _⟩,
    ⟨fun _ => trivial, fun i _ h => (by cases h)⟩,
    ⟨fun i _ => rfl, fun i _ h => (by cases h), fun i _ _ => rfl⟩, ?_⟩
  constructor <;> simp [init]

variable {pc : Pc T c.w} {p N k r : ℕ} {v x : T} {pos : BitVec c.w} {st₀ st : Stage}
  {cells : ℕ → Cell T c.w} {built taken : List (ℕ × T)} {published : List ℕ}

/-- A thread that holds no cell moves its program counter, having begun its call at ticket `b`. -/
theorem Inv.moveFree (hi : Inv c s g) {b : ℕ} (hold : (s.pcs t).stage? = none)
    (hok : ThreadOk c g s.enq s.deq b (s.ticket t) t pc) :
    Inv c { s.setPc t pc with began := update s.began t b } g := by
  refine ⟨hi.enq, hi.deq, hi.order, ⟨fun t' => ?_, fun i hlt hh => ?_⟩, hi.cells, hi.logs⟩
  · show ThreadOk c g s.enq s.deq (update s.began t b t') (s.ticket t') t' (update s.pcs t pc t')
    rcases eq_or_ne t' t with rfl | htt
    · rw [update_self, update_self]
      exact hok
    · rw [update_of_ne htt, update_of_ne htt]
      exact hi.threads.ok t'
  · obtain ⟨h1, h2⟩ := hi.threads.held i hlt hh
    have hne : g.owner i ≠ t := by
      rintro rfl
      rw [hold] at h1
      cases h1
    show (update s.pcs t pc (g.owner i)).stage? = _ ∧ _
    rw [update_of_ne hne]
    exact ⟨h1, h2⟩

theorem Inv.setPc (hi : Inv c s g) (hold : (s.pcs t).stage? = none)
    (hok : ThreadOk c g s.enq s.deq (s.began t) (s.ticket t) t pc) : Inv c (s.setPc t pc) g := by
  have hmove := hi.moveFree hold hok
  rwa [update_eq_self] at hmove

theorem Inv.okAt (hi : Inv c s g) (hpc : s.pcs t = pc) :
    ThreadOk c g s.enq s.deq (s.began t) (s.ticket t) t pc := hpc ▸ hi.threads.ok t

/-! ### The comparison is exact -/

/-- Comparing the sequence of the cell of ticket `p` with `q`, which is `p` or `p + 1`, is exact when
    fewer than `2 ^ (w - 2)` tickets were issued since `p`. -/
theorem compare_exact (hi : Inv c s g) {q : ℕ} (hpq : p ≤ q) (hqp : q ≤ p + 1) (hp : p ≤ s.enq)
    (hlag : s.deq < p + 2 ^ (c.w - 2)) : compareTickets (cellAt c s (word c.w p)).sequence (word c.w q) =
      if g.seq (p % c.capacity) = q then 0 else if g.seq (p % c.capacity) < q then -1 else 1 := by
  have hcell := Nat.mod_lt p c.capacity_pos
  obtain ⟨hlo, hhi⟩ := hi.order.seq_bounds hcell
  have hcap := c.slack
  have htwo := c.two_le
  have hw : 2 ≤ c.w := by
    by_contra hlt
    rw [Nat.sub_eq_zero_of_le (by omega : c.w ≤ 2)] at hcap
    omega
  have hhalf : 2 ^ (c.w - 1) = 2 * 2 ^ (c.w - 2) := by
    rw [← pow_succ', show c.w - 2 + 1 = c.w - 1 by omega]
  rw [cellAt, c.slot_word, hi.cells.sequence _ hcell]
  exact compareTickets_word (by omega) (by omega) (by omega)

/-! ### Loads, lost exchanges and new calls -/

theorem stage?_of_not_inProgress {w : ℕ} {pc : Pc T w} (h : ¬pc.inProgress = true) :
    pc.stage? = none := by
  cases pc <;> first | rfl | exact absurd rfl h

/-- The ticket of a timely push was read less than `2 ^ (w - 2)` issues ago. -/
theorem push_lag (hi : Inv c s g) (ht : Timely c s) (hin : (s.pcs t).inProgress = true)
    (hpush : (s.pcs t).isPush = true) (hb : s.began t ≤ p) : s.deq < p + 2 ^ (c.w - 2) := by
  have hlag := ht t hin
  rw [if_pos hpush] at hlag
  have hde := hi.order.deq_le
  omega

/-- The ticket of a timely pop was read less than `2 ^ (w - 2)` issues ago. -/
theorem pop_lag (ht : Timely c s) (hin : (s.pcs t).inProgress = true) (hpush : (s.pcs t).isPush = false)
    (hb : s.began t ≤ p) : s.deq < p + 2 ^ (c.w - 2) := by
  have hlag := ht t hin
  rw [if_neg (by rw [hpush]; decide)] at hlag
  omega

section

variable (hi : Inv c s g)
include hi

theorem inv_pushPos (hpc : s.pcs t = .pushPos v) : Inv c (s.setPc t (.pushSeq v s.enqueuePos)) g :=
  hi.setPc (by rw [hpc]; rfl) ⟨s.enq, hi.enq, hi.okAt hpc, le_refl _⟩

theorem inv_popPos (hpc : s.pcs t = .popPos) : Inv c (s.setPc t (.popSeq s.dequeuePos)) g :=
  hi.setPc (by rw [hpc]; rfl) ⟨s.deq, hi.deq, hi.okAt hpc, le_refl _⟩

/-- A lost exchange hands the thread the current counter. -/
theorem inv_pushLost (hpc : s.pcs t = .pushCas v pos) :
    Inv c (s.setPc t (.pushSeq v s.enqueuePos)) g := by
  obtain ⟨p, -, hb, hp, -⟩ := hi.okAt hpc
  exact hi.setPc (by rw [hpc]; rfl) ⟨s.enq, hi.enq, hb.trans hp, le_refl _⟩

theorem inv_popLost (hpc : s.pcs t = .popCas pos) : Inv c (s.setPc t (.popSeq s.dequeuePos)) g := by
  obtain ⟨p, -, hb, hp, -⟩ := hi.okAt hpc
  exact hi.setPc (by rw [hpc]; rfl) ⟨s.deq, hi.deq, hb.trans hp, le_refl _⟩

/-- The sequence load of a push decides by the true order of the cell's sequence and its ticket. -/
theorem advance_pushSeq (hp : p ≤ s.enq) (hlag : s.deq < p + 2 ^ (c.w - 2)) :
    advance c s t (.pushSeq v (word c.w p)) = some (s.setPc t
      (if g.seq (p % c.capacity) = p then .pushCas v (word c.w p)
        else if g.seq (p % c.capacity) < p then .returned (.pushed false) else .pushPos v)) := by
  simp only [advance, compare_exact hi (le_refl p) (Nat.le_succ p) hp hlag]
  rcases Nat.lt_trichotomy (g.seq (p % c.capacity)) p with hlt | heq | hgt
  · rw [if_neg hlt.ne, if_pos hlt, if_neg hlt.ne, if_pos hlt]; rfl
  · rw [if_pos heq, if_pos heq]; rfl
  · rw [if_neg hgt.ne', if_neg hgt.not_gt, if_neg hgt.ne', if_neg hgt.not_gt]; rfl

/-- The sequence load of a pop compares with the ticket's successor. -/
theorem advance_popSeq (hp : p ≤ s.deq) (hlag : s.deq < p + 2 ^ (c.w - 2)) :
    advance c s t (.popSeq (word c.w p)) = some (s.setPc t
      (if g.seq (p % c.capacity) = p + 1 then .popCas (word c.w p)
        else if g.seq (p % c.capacity) < p + 1 then .returned (.popped none) else .popPos)) := by
  have hnext : word c.w p + 1 = word c.w (p + 1) := word_add c.w p 1
  have hpE := hp.trans hi.order.deq_le
  simp only [advance, hnext, compare_exact hi (Nat.le_succ p) (le_refl _) hpE hlag]
  rcases Nat.lt_trichotomy (g.seq (p % c.capacity)) (p + 1) with hlt | heq | hgt
  · rw [if_neg hlt.ne, if_pos hlt, if_neg hlt.ne, if_pos hlt]; rfl
  · rw [if_pos heq, if_pos heq]; rfl
  · rw [if_neg hgt.ne', if_neg hgt.not_gt, if_neg hgt.ne', if_neg hgt.not_gt]; rfl

theorem inv_pushSeq (ht : Timely c s) (hpc : s.pcs t = .pushSeq v pos)
    (h : advance c s t (s.pcs t) = some s') : Inv c s' g := by
  obtain ⟨p, rfl, hb, hp⟩ := hi.okAt hpc
  have hlag := push_lag hi ht (t := t) (by rw [hpc]; rfl) (by rw [hpc]; rfl) hb
  rw [hpc, advance_pushSeq hi hp hlag] at h
  obtain rfl := Option.some.inj h
  refine hi.setPc (by rw [hpc]; rfl) ?_
  split
  · next heq => exact ⟨p, rfl, hb, hp, heq.ge⟩
  · split
    · trivial
    · exact hb.trans hp

theorem inv_popSeq (ht : Timely c s) (hpc : s.pcs t = .popSeq pos)
    (h : advance c s t (s.pcs t) = some s') : Inv c s' g := by
  obtain ⟨p, rfl, hb, hp⟩ := hi.okAt hpc
  have hlag := pop_lag ht (t := t) (by rw [hpc]; rfl) (by rw [hpc]; rfl) hb
  rw [hpc, advance_popSeq hi hp hlag] at h
  obtain rfl := Option.some.inj h
  refine hi.setPc (by rw [hpc]; rfl) ?_
  split
  · next heq => exact ⟨p, rfl, hb, hp, heq.ge⟩
  · split
    · trivial
    · exact hb.trans hp

/-! ### Exchanges that win -/

/-- A push that wins the exchange at the current counter takes ticket `enq`, whose cell is vacant. -/
theorem pushWon_turn (hpc : s.pcs t = .pushCas v pos) (heq : s.enqueuePos = pos)
    (hlag : s.enq < s.began t + 2 ^ (c.w - 2)) :
    g.turn (s.enq % c.capacity) = s.enq ∧ g.stage (s.enq % c.capacity) = .vacant ∧
    pos = word c.w s.enq := by
  obtain ⟨p, hpos, hb, hp, hseq⟩ := hi.okAt hpc
  have hw : 2 ^ (c.w - 2) ≤ 2 ^ c.w := Nat.pow_le_pow_right (by decide) (Nat.sub_le _ _)
  obtain rfl : p = s.enq := word_inj (w := c.w) hp (by omega) (by rw [← hpos, ← heq, hi.enq])
  have hcell := Nat.mod_lt s.enq c.capacity_pos
  have htwo := c.two_le
  have hord := hi.order.ord _ hcell
  have hturn : g.turn (s.enq % c.capacity) = s.enq := by
    rcases hi.order.turn_enq c.capacity_pos with h | h
    · exact h
    · exfalso
      revert hseq
      unfold View.seq
      cases g.stage (s.enq % c.capacity) <;> simp only [Stage.seq] <;> omega
  refine ⟨hturn, ?_, hpos⟩
  rw [hturn] at hord
  have hde := hi.order.deq_le
  revert hord
  cases g.stage (s.enq % c.capacity) <;> simp only [Stage.Ord, reduceCtorEq, implies_true] <;> omega

/-- A pop that wins the exchange at the current counter takes ticket `deq`, whose cell is full. -/
theorem popWon_turn (hpc : s.pcs t = .popCas pos) (heq : s.dequeuePos = pos)
    (hlag : s.deq < s.began t + 2 ^ (c.w - 2)) :
    g.turn (s.deq % c.capacity) = s.deq ∧ g.stage (s.deq % c.capacity) = .full ∧
    pos = word c.w s.deq := by
  obtain ⟨p, hpos, hb, hp, hseq⟩ := hi.okAt hpc
  have hw : 2 ^ (c.w - 2) ≤ 2 ^ c.w := Nat.pow_le_pow_right (by decide) (Nat.sub_le _ _)
  obtain rfl : p = s.deq := word_inj (w := c.w) hp (by omega) (by rw [← hpos, ← heq, hi.deq])
  have hcell := Nat.mod_lt s.deq c.capacity_pos
  have htwo := c.two_le
  have hord := hi.order.ord _ hcell
  have hturn : g.turn (s.deq % c.capacity) = s.deq := by
    rcases hi.order.turn_deq c.capacity_pos with h | h
    · exact h
    · exfalso
      revert hseq
      unfold View.seq
      cases g.stage (s.deq % c.capacity) <;> simp only [Stage.seq] <;> omega
  refine ⟨hturn, ?_, hpos⟩
  rw [View.seq, hturn] at hseq
  rw [hturn] at hord
  revert hord hseq
  cases g.stage (s.deq % c.capacity) <;>
    simp only [Stage.Ord, Stage.seq, reduceCtorEq, implies_true] <;> omega

/-- Winning the push exchange hands the vacant cell of ticket `enq` to the thread. -/
theorem inv_pushWon (hpc : s.pcs t = .pushCas v pos) (heq : s.enqueuePos = pos)
    (hlag : s.enq < s.began t + 2 ^ (c.w - 2)) : ∃ g', Inv c { s.setPc t (.pushBuild v pos) with
      enqueuePos := pos + 1, enq := s.enq + 1, ticket := update s.ticket t s.enq } g' := by
  obtain ⟨hturn, hstage, hpos⟩ := pushWon_turn hi hpc heq hlag
  have hcell := Nat.mod_lt s.enq c.capacity_pos
  have hp : g.Progress (s.enq % c.capacity) s.enq .building := .inr ⟨hturn, by rw [hstage]; decide⟩
  refine ⟨g.set (s.enq % c.capacity) s.enq .building t, ?_, hi.deq, ?_, ?_, ?_, hi.logs.move hp⟩
  · rw [hpos]
    exact word_add c.w s.enq 1
  · have hclaim := hi.order.claimPush (t := t) hcell hturn
    rwa [hturn] at hclaim
  · refine hi.threads.move (k := s.enq) rfl hi.order.mod rfl rfl rfl
      (Nat.le_succ _) (le_refl _) hp (fun h => ?_) (fun st' h => ?_) ?_ fun _ => ⟨rfl, rfl⟩
    · rw [hstage] at h
      cases h
    · rw [hpc] at h
      cases h
    · exact ⟨hpos, View.set_turn_self, View.set_stage_self, View.set_owner_self⟩
  · exact hi.cells.keep hcell hturn (by rw [View.seq, hstage, hturn]; rfl) (by rw [hstage]; rfl)

/-- Winning the pop exchange hands the full cell of ticket `deq` to the thread. -/
theorem inv_popWon (hpc : s.pcs t = .popCas pos) (heq : s.dequeuePos = pos)
    (hlag : s.deq < s.began t + 2 ^ (c.w - 2)) : ∃ g', Inv c { s.setPc t (.popMove pos) with
      dequeuePos := pos + 1, deq := s.deq + 1, ticket := update s.ticket t s.deq } g' := by
  obtain ⟨hturn, hstage, hpos⟩ := popWon_turn hi hpc heq hlag
  have hcell := Nat.mod_lt s.deq c.capacity_pos
  have hp : g.Progress (s.deq % c.capacity) s.deq .moving := .inr ⟨hturn, by rw [hstage]; decide⟩
  have hord := hi.order.ord _ hcell
  rw [hstage, hturn] at hord
  refine ⟨g.set (s.deq % c.capacity) s.deq .moving t, hi.enq, ?_, ?_, ?_, ?_, hi.logs.move hp⟩
  · rw [hpos]
    exact word_add c.w s.deq 1
  · have hclaim := hi.order.claimPop (t := t) hcell hturn hord.2
    rwa [hturn] at hclaim
  · refine hi.threads.move (k := s.deq) rfl hi.order.mod rfl rfl rfl
      (le_refl _) (Nat.le_succ _) hp (fun h => ?_) (fun st' h => ?_) ?_ fun _ => ⟨rfl, rfl⟩
    · rw [hstage] at h
      cases h
    · rw [hpc] at h
      cases h
    · exact ⟨hpos, View.set_turn_self, View.set_stage_self, View.set_owner_self⟩
  · exact hi.cells.keep hcell hturn (by rw [View.seq, hstage, hturn]; rfl) (by rw [hstage]; rfl)

/-! ### The owner of a cell at work -/

/-- STEP (owner): the thread that holds the cell of its ticket moves it on; counters stay. -/
theorem Inv.moveHeld {k' : ℕ} {released : List ℕ} (hst : (s.pcs t).stage? = some st₀)
    (hp : g.Progress (s.ticket t % c.capacity) k' st)
    (horder : Order c.capacity s.enq s.deq (g.set (s.ticket t % c.capacity) k' st t))
    (hnew : ThreadOk c (g.set (s.ticket t % c.capacity) k' st t) s.enq s.deq (s.began t)
      (s.ticket t) t pc) (hheld : st.held = true → pc.stage? = some st ∧ s.ticket t = k')
    (hcells : Cells c cells built (g.set (s.ticket t % c.capacity) k' st t))
    (hlogs : Logs c.capacity built published taken released (g.set (s.ticket t % c.capacity) k' st t)) :
    Inv c { s.setPc t pc with
      cells := cells, built := built, published := published, taken := taken, released := released }
      (g.set (s.ticket t % c.capacity) k' st t) := by
  obtain ⟨pos, -, -, -, howner⟩ := hi.threads.holds hst
  exact ⟨hi.enq, hi.deq, horder, hi.threads.move rfl hi.order.mod rfl rfl
    (update_eq_self t s.ticket).symm (le_refl _) (le_refl _) hp (fun _ => howner)
    (fun _ _ => rfl) hnew hheld, hcells, hlogs⟩

/-- STEP (owner, same ticket): a later stage that is in order wherever the present one is. -/
theorem Inv.moveStage (st : Stage) (hst : (s.pcs t).stage? = some st₀)
    (hh : Holds c g t (s.ticket t) st₀ pos) (hrank : st₀.rank ≤ st.rank)
    (hord : st₀.Ord s.enq s.deq (s.ticket t) → st.Ord s.enq s.deq (s.ticket t))
    (hnew : Holds c (g.set (s.ticket t % c.capacity) (s.ticket t) st t) t (s.ticket t) st pos →
      ThreadOk c (g.set (s.ticket t % c.capacity) (s.ticket t) st t) s.enq s.deq (s.began t)
        (s.ticket t) t pc) (hheld : st.held = true → pc.stage? = some st)
    (hcells : Cells c cells built (g.set (s.ticket t % c.capacity) (s.ticket t) st t))
    (hlogs : Logs c.capacity s.built s.published s.taken s.released
        (g.set (s.ticket t % c.capacity) (s.ticket t) st t) →
      Logs c.capacity built published taken s.released
        (g.set (s.ticket t % c.capacity) (s.ticket t) st t)) : ∃ g', Inv c { s.setPc t pc with
      cells := cells, built := built, published := published, taken := taken } g' := by
  obtain ⟨hpos, hturn, hstage, -⟩ := hh
  have hcell := Nat.mod_lt (s.ticket t) c.capacity_pos
  have hp : g.Progress (s.ticket t % c.capacity) (s.ticket t) st :=
    .inr ⟨hturn, by rw [hstage]; exact hrank⟩
  refine ⟨_, hi.moveHeld hst hp ?_ (hnew ?_) (fun h => ⟨hheld h, rfl⟩) hcells (hlogs (hi.logs.move hp))⟩
  · have hold := hi.order.ord _ hcell
    rw [hstage, hturn] at hold
    have hset : Order c.capacity s.enq s.deq (g.set _ _ st t) :=
      hi.order.setStage hcell (by rw [hturn]; exact hord hold)
    rwa [hturn] at hset
  · exact ⟨hpos, View.set_turn_self, View.set_stage_self, View.set_owner_self⟩

end

/-- Where the cell of a held ticket is. -/
theorem Holds.cell (h : Holds c g t k st pos) :
    k % c.capacity < c.capacity ∧ c.slot pos = k % c.capacity :=
  ⟨Nat.mod_lt k c.capacity_pos, by rw [h.1, c.slot_word]⟩

/-- A ticket whose cell stands below a stage is in no log of that stage. -/
theorem not_reached (hturn : g.turn (k % N) = k) (hrank : (g.stage (k % N)).rank < r) :
    ¬g.Reached N k r := by
  rintro (h | ⟨-, h⟩) <;> omega

theorem reached_set_self (h : r ≤ st.rank) : (g.set (k % N) k st t).Reached N k r :=
  .inr ⟨View.set_turn_self.symm, by rw [View.set_stage_self]; exact h⟩

section

variable (hi : Inv c s g)
include hi

theorem inv_pushBuild (hpc : s.pcs t = .pushBuild v pos) (h : advance c s t (s.pcs t) = some s') :
    ∃ g', Inv c s' g' := by
  have hh := hi.okAt hpc
  obtain ⟨hpos, hturn, hstage, -⟩ := id hh
  obtain ⟨hcell, hslot⟩ := Holds.cell hh
  rw [hpc] at h
  simp only [advance, setCell, cellAt, hslot, Option.some.injEq] at h
  subst h
  refine hi.moveStage .publishing (by rw [hpc]; rfl) hh (by decide) id id (fun _ => rfl)
    (hi.cells.move (List.subset_append_left ..) ?_ (fun _ => ⟨v, rfl, ?_⟩) fun h => (by cases h))
    fun hl => hl.addBuilt v (fun e he heq => ?_) (reached_set_self (by decide))
  · show (s.cells (s.ticket t % c.capacity)).sequence = _
    rw [hi.cells.sequence _ hcell, View.seq, hstage, hturn]; rfl
  · exact List.mem_append_right _ (List.mem_singleton_self _)
  · have hreach := hi.logs.built_reached e he
    rw [heq] at hreach
    exact not_reached hturn (by rw [hstage]; decide) hreach

theorem inv_pushPublish (hpc : s.pcs t = .pushPublish v pos) (h : advance c s t (s.pcs t) = some s') :
    ∃ g', Inv c s' g' := by
  have hh := hi.okAt hpc
  obtain ⟨hpos, hturn, hstage, -⟩ := id hh
  obtain ⟨hcell, hslot⟩ := Holds.cell hh
  rw [hpc] at h
  simp only [advance, setCell, cellAt, hslot, Option.some.injEq] at h
  subst h
  refine hi.moveStage .full (by rw [hpc]; rfl) hh (by decide) id (fun _ => trivial)
    (fun h => (by cases h)) (hi.cells.move (List.Subset.refl _) ?_ (fun _ => ?_) fun h => (by cases h))
    fun hl => hl.addPublished (reached_set_self (by decide))
  · rw [hpos]
    exact word_add c.w (s.ticket t) 1
  · obtain ⟨v', hv', hmem⟩ := hi.cells.live _ hcell (by rw [hstage]; rfl)
    exact ⟨v', hv', hturn ▸ hmem⟩

theorem inv_popMove (hpc : s.pcs t = .popMove pos) (h : advance c s t (s.pcs t) = some s') :
    ∃ g', Inv c s' g' := by
  have hh := hi.okAt hpc
  obtain ⟨hpos, hturn, hstage, -⟩ := id hh
  obtain ⟨hcell, hslot⟩ := Holds.cell hh
  obtain ⟨x, hx, hmem⟩ := hi.cells.live _ hcell (by rw [hstage]; rfl)
  rw [hpc] at h
  simp only [advance, cellAt, hslot, hx, Option.map_some, Option.some.injEq] at h
  subst h
  refine hi.moveStage .destroying (by rw [hpc]; rfl) hh (by decide) id id (fun _ => rfl)
    (hi.cells.keep hcell hturn (by rw [View.seq, hstage, hturn]; rfl) (by rw [hstage]; rfl))
    fun hl => hl.addTaken (fun e he heq => ?_) (reached_set_self (by decide)) (hturn ▸ hmem)
  have hreach := hi.logs.taken_reached e he
  rw [heq] at hreach
  exact not_reached hturn (by rw [hstage]; decide) hreach

theorem inv_popDestroy (hpc : s.pcs t = .popDestroy pos x) (h : advance c s t (s.pcs t) = some s') :
    ∃ g', Inv c s' g' := by
  have hh := hi.okAt hpc
  obtain ⟨hpos, hturn, hstage, -⟩ := id hh
  obtain ⟨hcell, hslot⟩ := Holds.cell hh
  rw [hpc] at h
  simp only [advance, setCell, cellAt, hslot, Option.some.injEq] at h
  subst h
  refine hi.moveStage .releasing (by rw [hpc]; rfl) hh (by decide) id id (fun _ => rfl)
    (hi.cells.move (List.Subset.refl _) ?_ (fun h => (by cases h)) fun _ => rfl) id
  show (s.cells (s.ticket t % c.capacity)).sequence = _
  rw [hi.cells.sequence _ hcell, View.seq, hstage, hturn]; rfl

/-- Releasing a cell hands it to the ticket one lap later. -/
theorem inv_popRelease (hpc : s.pcs t = .popRelease pos x) (h : advance c s t (s.pcs t) = some s') :
    ∃ g', Inv c s' g' := by
  have hh := hi.okAt hpc
  obtain ⟨hpos, hturn, hstage, -⟩ := id hh
  obtain ⟨hcell, hslot⟩ := Holds.cell hh
  have hN := c.capacity_pos
  have hp : g.Progress (s.ticket t % c.capacity) (s.ticket t + c.capacity) .vacant := .inl (by omega)
  rw [hpc] at h
  simp only [advance, setCell, cellAt, hslot, Option.some.injEq] at h
  subst h
  refine ⟨_, hi.moveHeld (by rw [hpc]; rfl) hp ?_ trivial (fun h => (by cases h))
    (hi.cells.move (List.Subset.refl _) ?_ (fun h => (by cases h)) fun _ => ?_)
    ((hi.logs.move hp).addReleased ?_)⟩
  · have hlt := hi.order.ord _ hcell
    rw [hstage] at hlt
    have hset := hi.order.recycle (t := t) hcell hlt
    rwa [hturn] at hset
  · rw [hpos]
    exact word_add c.w (s.ticket t) c.capacity
  · exact hi.cells.dead _ hcell (by rw [hstage]; rfl)
  · rw [View.set_turn_self]
    omega

/-! ### Every step -/

theorem inv_spurious (h : step c s (t, .spurious) = some s') : Inv c s' g := by
  simp only [step] at h
  split at h
  · next v pos hpc =>
    obtain rfl := Option.some.inj h
    exact inv_pushLost hi hpc
  · next pos hpc =>
    obtain rfl := Option.some.inj h
    exact inv_popLost hi hpc
  · cases h

theorem inv_pushCas (ht : Timely c s) (hpc : s.pcs t = .pushCas v pos)
    (h : advance c s t (s.pcs t) = some s') : ∃ g', Inv c s' g' := by
  have hlag := ht t (by rw [hpc]; rfl)
  rw [hpc, if_pos (by rfl)] at hlag
  rw [hpc, advance] at h
  split at h <;> obtain rfl := Option.some.inj h
  · next heq => exact inv_pushWon hi hpc heq (by omega)
  · exact ⟨g, inv_pushLost hi hpc⟩

theorem inv_popCas (ht : Timely c s) (hpc : s.pcs t = .popCas pos)
    (h : advance c s t (s.pcs t) = some s') : ∃ g', Inv c s' g' := by
  have hlag := ht t (by rw [hpc]; rfl)
  rw [hpc, if_neg (by exact Bool.false_ne_true)] at hlag
  rw [hpc, advance] at h
  split at h <;> obtain rfl := Option.some.inj h
  · next heq => exact inv_popWon hi hpc heq (by omega)
  · exact ⟨g, inv_popLost hi hpc⟩

theorem inv_advance (ht : Timely c s) (h : advance c s t (s.pcs t) = some s') : ∃ g', Inv c s' g' := by
  cases hpc : s.pcs t with
  | idle => rw [hpc] at h; cases h
  | returned r => rw [hpc] at h; cases h
  | pushPos v =>
    rw [hpc] at h
    obtain rfl := Option.some.inj h
    exact ⟨g, inv_pushPos hi hpc⟩
  | popPos =>
    rw [hpc] at h
    obtain rfl := Option.some.inj h
    exact ⟨g, inv_popPos hi hpc⟩
  | pushSeq v pos => exact ⟨g, inv_pushSeq hi ht hpc h⟩
  | popSeq pos => exact ⟨g, inv_popSeq hi ht hpc h⟩
  | pushCas v pos => exact inv_pushCas hi ht hpc h
  | popCas pos => exact inv_popCas hi ht hpc h
  | pushBuild v pos => exact inv_pushBuild hi hpc h
  | pushPublish v pos => exact inv_pushPublish hi hpc h
  | popMove pos => exact inv_popMove hi hpc h
  | popDestroy pos x => exact inv_popDestroy hi hpc h
  | popRelease pos x => exact inv_popRelease hi hpc h

/-- STEP: one step from a timely state keeps the ticket invariant. -/
theorem inv_step (ht : Timely c s) {a : ℕ × Act T} (h : step c s a = some s') : ∃ g', Inv c s' g' := by
  obtain ⟨t, act⟩ := a
  cases act with
  | tryPush v =>
    simp only [step] at h
    split at h
    · cases h
    · next hidle =>
      obtain rfl := Option.some.inj h
      exact ⟨g, hi.moveFree (stage?_of_not_inProgress hidle) (le_refl s.enq)⟩
  | tryPop =>
    simp only [step] at h
    split at h
    · cases h
    · next hidle =>
      obtain rfl := Option.some.inj h
      exact ⟨g, hi.moveFree (stage?_of_not_inProgress hidle) (le_refl s.deq)⟩
  | go => exact inv_advance hi ht h
  | spurious => exact ⟨g, inv_spurious hi h⟩

end

theorem timely_init : Timely c (init c : State T c.w) := fun _ h => by cases h

theorem Reach.timely (h : Reach c s) : Timely c s := by
  cases h with
  | init => exact timely_init
  | step a _ _ ht => exact ht

/-- RUN: the ticket invariant holds in every state a timely run reaches. -/
theorem Reach.inv (h : Reach c s) : ∃ g, Inv c s g := by
  induction h with
  | init => exact ⟨view₀, inv_init⟩
  | step a hr hs _ ih =>
    obtain ⟨g, hi⟩ := ih
    exact inv_step hi hr.timely hs

end Metl.MpmcQueue
