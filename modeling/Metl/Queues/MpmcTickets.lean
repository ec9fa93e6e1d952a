import Metl.Queues.MpmcSteps

/-! `metl::mpmc_queue` never loses, duplicates or reorders by ticket.

    The ticket invariant says what a log entry implies; here a second, simpler invariant says that no
    ticket is forgotten: every issued ticket is in its log or its owner is just about to enter it.
    With no call in progress nobody owes anything, every cell is vacant or full, and the tickets from
    `deq` up to `enq` are exactly the live elements, which the destructor walks in order. -/

namespace Metl.MpmcQueue
open Metl.Schemes Metl.IndexDistance Function

variable {T : Type*} {c : Cfg} {s s' : State T c.w} {g : View} {t : ℕ}

/-! ### No ticket is forgotten -/

/-- The value a consumer carries, and finally returns, is the one logged under its ticket. -/
def Carried {w : ℕ} (taken : List (ℕ × T)) (k : ℕ) : Pc T w → Prop
  | .popDestroy _ x => (k, x) ∈ taken
  | .popRelease _ x => (k, x) ∈ taken
  | .returned (.popped (some x)) => (k, x) ∈ taken
  | _ => True

variable {k k' i : ℕ} {pc : Pc T c.w} {st : Stage} {v : T} {pos : BitVec c.w} {a : ℕ × Act T}

theorem Carried.mono {w : ℕ} {taken taken' : List (ℕ × T)} {pc : Pc T w} (h : Carried taken k pc)
    (hsub : taken ⊆ taken') : Carried taken' k pc := by
  cases pc with
  | popDestroy pos x => exact hsub h
  | popRelease pos x => exact hsub h
  | returned r =>
    match r with
    | .popped (some x) => exact hsub h
    | .popped none => trivial
    | .pushed _ => trivial
  | _ => trivial

/-- Every issued ticket is in its log, or its owner holds it just before logging it. -/
structure Owed (s : State T c.w) : Prop where
  built : ∀ k < s.enq, (∃ v, (k, v) ∈ s.built) ∨
    ∃ t, (s.pcs t).stage? = some .building ∧ s.ticket t = k
  taken : ∀ k < s.deq, (∃ x, (k, x) ∈ s.taken) ∨
    ∃ t, (s.pcs t).stage? = some .moving ∧ s.ticket t = k
  carried : ∀ t, Carried s.taken (s.ticket t) (s.pcs t)

/-- One thread's move cannot unpay another's ticket. -/
theorem owed_move {log log' : List (ℕ × T)} {n n' : ℕ}
    (h : ∀ k < n, (∃ v, (k, v) ∈ log) ∨ ∃ t, (s.pcs t).stage? = some st ∧ s.ticket t = k)
    (hsub : log ⊆ log') (hpcs : s'.pcs = update s.pcs t pc) (hticket : s'.ticket = update s.ticket t k')
    (hnew : ∀ k < n', k < n ∨ pc.stage? = some st ∧ k' = k)
    (hpaid : (s.pcs t).stage? = some st → ∃ v, (s.ticket t, v) ∈ log') :
    ∀ k < n', (∃ v, (k, v) ∈ log') ∨ ∃ t, (s'.pcs t).stage? = some st ∧ s'.ticket t = k := by
  intro k hk
  rcases hnew k hk with hlt | ⟨hst, rfl⟩
  · rcases h k hlt with ⟨v, hv⟩ | ⟨t', hst, rfl⟩
    · exact .inl ⟨v, hsub hv⟩
    · rcases eq_or_ne t' t with rfl | htt
      · exact .inl (hpaid hst)
      · right
        refine ⟨t', ?_, ?_⟩
        · rw [hpcs, update_of_ne htt]; exact hst
        · rw [hticket, update_of_ne htt]
  · right
    refine ⟨t, ?_, ?_⟩
    · rw [hpcs, update_self]; exact hst
    · rw [hticket, update_self]

theorem carried_move (h : ∀ t, Carried s.taken (s.ticket t) (s.pcs t)) (hsub : s.taken ⊆ s'.taken)
    (hpcs : s'.pcs = update s.pcs t pc) (hticket : s'.ticket = update s.ticket t k')
    (hnew : Carried s'.taken k' pc) : ∀ t, Carried s'.taken (s'.ticket t) (s'.pcs t) := by
  intro t'
  rw [hpcs, hticket]
  rcases eq_or_ne t' t with rfl | htt
  · rw [update_self, update_self]
    exact hnew
  · rw [update_of_ne htt, update_of_ne htt]
    exact (h t').mono hsub

section

variable (ho : Owed s)
include ho

/-- A thread that owes nothing moves on; the counters and the logs of values stay. -/
theorem Owed.pass (hpcs : s'.pcs = update s.pcs t pc) (hticket : s'.ticket = s.ticket)
    (henq : s'.enq = s.enq) (hdeq : s'.deq = s.deq) (hbuilt : s'.built = s.built)
    (htaken : s'.taken = s.taken) (hb : (s.pcs t).stage? ≠ some .building)
    (hm : (s.pcs t).stage? ≠ some .moving) (hc : Carried s.taken (s.ticket t) pc) : Owed s' := by
  have hself := hticket.trans (update_eq_self t s.ticket).symm
  refine ⟨?_, ?_, carried_move ho.carried (by rw [htaken]; exact List.Subset.refl _) hpcs hself
    (by rw [htaken]; exact hc)⟩
  · rw [henq, hbuilt]
    exact owed_move ho.built (List.Subset.refl _) hpcs hself (fun k hk => .inl hk) fun h => absurd h hb
  · rw [hdeq, htaken]
    exact owed_move ho.taken (List.Subset.refl _) hpcs hself (fun k hk => .inl hk) fun h => absurd h hm

theorem owed_setPc (hfree : (s.pcs t).stage? = none) (hc : Carried s.taken (s.ticket t) pc) :
    Owed (s.setPc t pc) :=
  ho.pass rfl rfl rfl rfl rfl rfl (by rw [hfree]; exact nofun) (by rw [hfree]; exact nofun) hc

theorem owed_pushCas (hpc : s.pcs t = .pushCas v pos) (h : advance c s t (s.pcs t) = some s') :
    Owed s' := by
  have hfree : (s.pcs t).stage? = none := by rw [hpc]; rfl
  rw [hpc, advance] at h
  split at h <;> obtain rfl := Option.some.inj h
  · refine ⟨owed_move ho.built (List.Subset.refl _) rfl rfl (fun k hk => ?_) ?_,
      owed_move ho.taken (List.Subset.refl _) rfl rfl (fun k hk => .inl hk) ?_,
      carried_move ho.carried (List.Subset.refl _) rfl rfl trivial⟩
    · rcases Nat.lt_succ_iff_lt_or_eq.mp hk with hlt | rfl
      · exact .inl hlt
      · exact .inr ⟨rfl, rfl⟩
    all_goals
      rw [hfree]
      rintro ⟨⟩
  · exact owed_setPc ho hfree trivial

theorem owed_popCas (hpc : s.pcs t = .popCas pos) (h : advance c s t (s.pcs t) = some s') : Owed s' := by
  have hfree : (s.pcs t).stage? = none := by rw [hpc]; rfl
  rw [hpc, advance] at h
  split at h <;> obtain rfl := Option.some.inj h
  · refine ⟨owed_move ho.built (List.Subset.refl _) rfl rfl (fun k hk => .inl hk) ?_,
      owed_move ho.taken (List.Subset.refl _) rfl rfl (fun k hk => ?_) ?_,
      carried_move ho.carried (List.Subset.refl _) rfl rfl trivial⟩
    · rw [hfree]
      rintro ⟨⟩
    · rcases Nat.lt_succ_iff_lt_or_eq.mp hk with hlt | rfl
      · exact .inl hlt
      · exact .inr ⟨rfl, rfl⟩
    · rw [hfree]
      rintro ⟨⟩
  · exact owed_setPc ho hfree trivial

theorem owed_pushBuild (hpc : s.pcs t = .pushBuild v pos) (h : advance c s t (s.pcs t) = some s') :
    Owed s' := by
  rw [hpc] at h
  obtain rfl := Option.some.inj h
  have hself := (update_eq_self t s.ticket).symm
  refine ⟨owed_move ho.built (List.subset_append_left ..) rfl hself (fun k hk => .inl hk) fun _ => ?_,
    owed_move ho.taken (List.Subset.refl _) rfl hself (fun k hk => .inl hk) ?_,
    carried_move ho.carried (List.Subset.refl _) rfl hself trivial⟩
  · exact ⟨v, List.mem_append_right _ (List.mem_singleton_self _)⟩
  · rw [hpc]
    exact nofun

theorem owed_popMove (hpc : s.pcs t = .popMove pos) (h : advance c s t (s.pcs t) = some s') :
    Owed s' := by
  rw [hpc, advance] at h
  obtain ⟨x, -, rfl⟩ := Option.map_eq_some_iff.mp h
  have hself := (update_eq_self t s.ticket).symm
  have hmem : (s.ticket t, x) ∈ s.taken ++ [(s.ticket t, x)] :=
    List.mem_append_right _ (List.mem_singleton_self _)
  refine ⟨owed_move ho.built (List.Subset.refl _) rfl hself (fun k hk => .inl hk) ?_,
    owed_move ho.taken (List.subset_append_left ..) rfl hself (fun k hk => .inl hk) fun _ => ⟨x, hmem⟩,
    carried_move ho.carried (List.subset_append_left ..) rfl hself hmem⟩
  rw [hpc]
  rintro ⟨⟩

theorem owed_advance (h : advance c s t (s.pcs t) = some s') : Owed s' := by
  have hcarried := ho.carried t
  cases hpc : s.pcs t <;> rw [hpc] at hcarried
  case pushCas v pos => exact owed_pushCas ho hpc h
  case popCas pos => exact owed_popCas ho hpc h
  case pushBuild v pos => exact owed_pushBuild ho hpc h
  case popMove pos => exact owed_popMove ho hpc h
  all_goals
    have hb : (s.pcs t).stage? ≠ some .building := by rw [hpc]; rintro ⟨⟩
    have hm : (s.pcs t).stage? ≠ some .moving := by rw [hpc]; rintro ⟨⟩
    rw [hpc] at h
    simp only [advance] at h
  case idle => cases h
  case returned r => cases h
  case pushSeq v pos =>
    -- all three branches of the comparison keep the thread's hands empty
    split at h
    · cases h; exact ho.pass rfl rfl rfl rfl rfl rfl hb hm trivial
    · split at h <;> (cases h; exact ho.pass rfl rfl rfl rfl rfl rfl hb hm trivial)
  case popSeq pos =>
    split at h
    · cases h; exact ho.pass rfl rfl rfl rfl rfl rfl hb hm trivial
    · split at h <;> (cases h; exact ho.pass rfl rfl rfl rfl rfl rfl hb hm trivial)
  case popDestroy pos x => cases h; exact ho.pass rfl rfl rfl rfl rfl rfl hb hm hcarried
  case popRelease pos x => cases h; exact ho.pass rfl rfl rfl rfl rfl rfl hb hm hcarried
  all_goals
    cases h
    exact ho.pass rfl rfl rfl rfl rfl rfl hb hm trivial

theorem owed_step (h : step c s a = some s') : Owed s' := by
  obtain ⟨t, act⟩ := a
  cases act <;> simp only [step] at h
  case go => exact owed_advance ho h
  case spurious =>
    split at h
    · next hpc => cases h; exact owed_setPc ho (by rw [hpc]; rfl) trivial
    · next hpc => cases h; exact owed_setPc ho (by rw [hpc]; rfl) trivial
    · cases h
  all_goals
    split at h
    · cases h
    · next hidle =>
      have hfree := stage?_of_not_inProgress hidle
      cases h
      exact ho.pass rfl rfl rfl rfl rfl rfl (by rw [hfree]; rintro ⟨⟩)
        (by rw [hfree]; rintro ⟨⟩) trivial

end

theorem Reach.owed (h : Reach c s) : Owed s := by
  induction h with
  | init => exact ⟨nofun, nofun, fun _ => trivial⟩
  | step a _ hs _ ih => exact owed_step ih hs

/-! ### No call in progress -/

def Quiescent (s : State T c.w) : Prop := ∀ t, (s.pcs t).inProgress = false

theorem Quiescent.stage?_none (hq : Quiescent s) (t : ℕ) : (s.pcs t).stage? = none :=
  stage?_of_not_inProgress (by rw [hq t]; exact Bool.false_ne_true)

theorem Quiescent.not_held (hq : Quiescent s) (hi : Inv c s g) (hlt : i < c.capacity) :
    (g.stage i).held = false := by
  by_contra hh
  have hst := (hi.threads.held i hlt (Bool.eq_true_of_not_eq_false hh)).1
  rw [hq.stage?_none] at hst
  cases hst

/-- With no call in progress a cell is full exactly when its ticket lies between the counters. -/
theorem Quiescent.stored_iff (hq : Quiescent s) (hi : Inv c s g) (hlt : i < c.capacity) :
    (g.stage i).stored = true ↔ s.deq ≤ g.turn i ∧ g.turn i < s.enq := by
  have hnot := hq.not_held hi hlt
  have hord := hi.order.ord i hlt
  revert hnot hord
  cases g.stage i <;> simp only [Stage.held, Stage.stored, Stage.Ord] <;> grind

/-- The cell of a queued ticket serves that ticket. -/
theorem turn_queued (hi : Inv c s g) (hlo : s.deq ≤ k) (hhi : k < s.enq) :
    g.turn (k % c.capacity) = k := by
  have hcell := Nat.mod_lt k c.capacity_pos
  have hge := hi.order.turn_ge c.capacity_pos hhi
  have hlt := hi.order.hi _ hcell
  rcases lap_cases (N := c.capacity) (hi.order.mod _ hcell) (by omega) (by omega) with h | h <;> omega

theorem built_unique (hi : Inv c s g) {x : T} (hv : (k, v) ∈ s.built) (hx : (k, x) ∈ s.built) : v = x :=
  congrArg Prod.snd (List.inj_on_of_nodup_map hi.logs.built_nodup hv hx rfl)

/-- The live elements are those of the tickets from `deq` up to `enq`. -/
theorem Quiescent.live_iff (hq : Quiescent s) (hi : Inv c s g) (hlt : i < c.capacity) (x : T) :
    (s.cells i).storage = some x ↔
      ∃ k, s.deq ≤ k ∧ k < s.enq ∧ k % c.capacity = i ∧ (k, x) ∈ s.built := by
  constructor
  · intro hx
    have hst : (g.stage i).stored = true := by
      by_contra hno
      rw [hi.cells.dead i hlt (Bool.eq_false_of_not_eq_true hno)] at hx
      cases hx
    obtain ⟨v, hv, hmem⟩ := hi.cells.live i hlt hst
    obtain rfl : v = x := Option.some.inj (hv.symm.trans hx)
    obtain ⟨hlo, hhi⟩ := (hq.stored_iff hi hlt).mp hst
    exact ⟨g.turn i, hlo, hhi, hi.order.mod i hlt, hmem⟩
  · rintro ⟨k, hlo, hhi, rfl, hmem⟩
    have hturn := turn_queued hi hlo hhi
    have hst := (hq.stored_iff hi hlt).mpr (by rw [hturn]; exact ⟨hlo, hhi⟩)
    obtain ⟨v, hv, hmem'⟩ := hi.cells.live _ hlt hst
    rw [hturn] at hmem'
    rw [hv, built_unique hi hmem hmem']

theorem Quiescent.built_all (hq : Quiescent s) (ho : Owed s) (hk : k < s.enq) :
    ∃ v, (k, v) ∈ s.built := by
  rcases ho.built k hk with h | ⟨t, hst, -⟩
  · exact h
  · rw [hq.stage?_none] at hst
    cases hst

theorem Quiescent.taken_all (hq : Quiescent s) (ho : Owed s) (hk : k < s.deq) :
    ∃ x, (k, x) ∈ s.taken := by
  rcases ho.taken k hk with h | ⟨t, hst, -⟩
  · exact h
  · rw [hq.stage?_none] at hst
    cases hst

/-! ### The destructor -/

/-- The loop destroys a run `xs` of live elements in order and leaves the other cells alone. -/
theorem destroyFrom_run : ∀ (xs : List T) (fuel p : ℕ) (cells : ℕ → Cell T c.w),
    xs.length ≤ fuel → xs.length ≤ c.capacity →
    (∀ j x, xs[j]? = some x → (cells ((p + j) % c.capacity)).storage = some x) →
    ∃ cells', destroyFrom c fuel cells (word c.w p) (word c.w (p + xs.length)) = some (cells', xs) ∧
      ∀ i, (cells' i).storage = none ∨ cells' i = cells i ∧ ∀ j < xs.length, (p + j) % c.capacity ≠ i
  | [], fuel, p, cells, _, _, _ => by
      refine ⟨cells, ?_, fun i => .inr ⟨rfl, nofun⟩⟩
      cases fuel <;> rw [destroyFrom] <;> exact if_pos rfl
  | x :: xs, 0, p, cells, hfuel, _, _ => absurd hfuel (Nat.not_succ_le_zero _)
  | x :: xs, fuel + 1, p, cells, hfuel, hcap, hlive => by
      have hlen : (x :: xs).length = xs.length + 1 := rfl
      have hword := c.lt_word
      have hne : word c.w p ≠ word c.w (p + (xs.length + 1)) := fun h => by
        have := word_inj (w := c.w) (by omega) (by omega) h
        omega
      have hx : (cells (p % c.capacity)).storage = some x := hlive 0 x rfl
      have hnext : word c.w p + 1 = word c.w (p + 1) := word_add c.w p 1
      obtain ⟨cells', hrun, hrest⟩ := destroyFrom_run xs fuel (p + 1)
        (update cells (p % c.capacity) ⟨(cells (p % c.capacity)).sequence, none⟩)
        (by omega) (by omega) fun j y hj => by
          have hjlt : j < xs.length := (List.getElem?_eq_some_iff.mp hj).1
          have hcell : (p + 1 + j) % c.capacity ≠ p % c.capacity := fun h => by
            have := c.offset_inj (n := p) (i := 1 + j) (j := 0) (by omega) (by omega)
              (by rwa [← Nat.add_assoc])
            omega
          rw [update_of_ne hcell, Nat.add_right_comm p 1 j]
          exact hlive (j + 1) y hj
      refine ⟨cells', ?_, fun i => ?_⟩
      · rw [destroyFrom, hlen, if_neg hne, c.slot_word, hx, hnext, Option.bind_some,
          show p + (xs.length + 1) = p + 1 + xs.length by omega, hrun, Option.map_some]
      · by_cases hpi : p % c.capacity = i
        · -- the first cell was emptied and no later element shares it
          rcases hrest i with h | ⟨h, -⟩
          · exact .inl h
          · rw [hpi, update_self] at h
            exact .inl (by rw [h])
        · rcases hrest i with h | ⟨h, hother⟩
          · exact .inl h
          · rw [update_of_ne (Ne.symm hpi)] at h
            refine .inr ⟨h, fun j hj => ?_⟩
            rcases j with _ | j
            · exact hpi
            · rw [show p + (j + 1) = p + 1 + j by omega]
              exact hother j (by omega)

/-- The queued elements in ticket order. -/
theorem Quiescent.queued (hq : Quiescent s) (ho : Owed s) :
    ∃ xs : List T, xs.length = s.enq - s.deq ∧ ∀ j x, xs[j]? = some x → (s.deq + j, x) ∈ s.built := by
  have hall : ∀ j : Fin (s.enq - s.deq), ∃ v, (s.deq + j.1, v) ∈ s.built :=
    fun j => hq.built_all ho (by omega)
  choose f hf using hall
  refine ⟨List.ofFn f, List.length_ofFn, fun j x hj => ?_⟩
  obtain ⟨hlt, rfl⟩ := List.getElem?_eq_some_iff.mp hj
  rw [List.getElem_ofFn]
  exact hf ⟨j, _⟩

/-- With no call in progress the destructor destroys every live element, once and in ticket order. -/
theorem Quiescent.destroyed (hq : Quiescent s) (hi : Inv c s g) (ho : Owed s) :
    ∃ cells xs, destroyFrom c c.capacity s.cells s.dequeuePos s.enqueuePos = some (cells, xs) ∧
      xs.length = s.enq - s.deq ∧ (∀ j x, xs[j]? = some x → (s.deq + j, x) ∈ s.built) ∧
      ∀ i < c.capacity, (cells i).storage = none := by
  obtain ⟨xs, hlen, hxs⟩ := hq.queued ho
  have hde := hi.order.deq_le
  have hed := hi.order.enq_le
  have hcell := fun k => Nat.mod_lt k c.capacity_pos
  obtain ⟨cells, hrun, hrest⟩ := destroyFrom_run xs c.capacity s.deq s.cells (by omega) (by omega)
    fun j x hj => by
      have hjlt := (List.getElem?_eq_some_iff.mp hj).1
      exact (hq.live_iff hi (hcell _) x).mpr ⟨_, by omega, by omega, rfl, hxs j x hj⟩
  rw [show s.deq + xs.length = s.enq by omega, ← hi.deq, ← hi.enq] at hrun
  refine ⟨cells, xs, hrun, hlen, hxs, fun i hlt => ?_⟩
  rcases hrest i with h | ⟨h, hnone⟩
  · exact h
  · -- an untouched cell serves no queued ticket, so it was empty all along
    rw [h]
    refine Option.eq_none_iff_forall_ne_some.mpr fun x hx => ?_
    obtain ⟨k, hlo, hhi, hk, -⟩ := (hq.live_iff hi hlt x).mp hx
    exact hnone (k - s.deq) (by omega) (by rwa [Nat.add_sub_cancel' hlo])

/-! ### Short runs are timely -/

/-- A step moves the program counter of its own thread only, and no counter back. -/
theorem step_frame (h : step c s a = some s') :
    (∃ pc, s'.pcs = update s.pcs a.1 pc) ∧ s.enq ≤ s'.enq ∧ s.deq ≤ s'.deq := by
  obtain ⟨t, act⟩ := a
  cases act <;> simp only [step] at h
  case go =>
    cases hpc : s.pcs t <;> rw [hpc] at h <;> simp only [advance] at h
    case popMove pos =>
      obtain ⟨x, -, rfl⟩ := Option.map_eq_some_iff.mp h
      exact ⟨⟨_, rfl⟩, le_refl _, le_refl _⟩
    all_goals
      repeat' split at h
      all_goals
        cases h <;> exact ⟨⟨_, rfl⟩, by simp only [State.setPc, setCell]; omega,
          by simp only [State.setPc, setCell]; omega⟩
  all_goals
    split at h <;> cases h <;> exact ⟨⟨_, rfl⟩, le_refl _, le_refl _⟩

theorem run_counters {acts : List (ℕ × Act T)} (h : run (step c) s acts = some s') :
    s.enq ≤ s'.enq ∧ s.deq ≤ s'.deq := by
  refine run_inv (I := fun s' => s.enq ≤ s'.enq ∧ s.deq ≤ s'.deq) (fun s₁ a s₂ hle hs => ?_) acts s s'
    ⟨le_refl _, le_refl _⟩ h
  obtain ⟨-, he, hd⟩ := step_frame hs
  exact ⟨hle.1.trans he, hle.2.trans hd⟩

/-- A run that issues fewer than `2 ^ (w - 2)` tickets on each side is timely throughout. -/
theorem reach_run : ∀ (acts : List (ℕ × Act T)) {s s' : State T c.w}, Reach c s →
    run (step c) s acts = some s' → s'.enq < 2 ^ (c.w - 2) → s'.deq < 2 ^ (c.w - 2) → Reach c s'
  | [], s, s', hr, hrun, _, _ => by
      rw [run_nil, Option.some.injEq] at hrun
      exact hrun ▸ hr
  | a :: acts, s, s'', hr, hrun, henq, hdeq => by
      obtain ⟨s', hs, hrest⟩ := run_cons_some.mp hrun
      obtain ⟨he, hd⟩ := run_counters hrest
      refine reach_run acts (.step a hr hs fun t _ => ?_) hrest henq hdeq
      split <;> omega

/-! ### What a step finds in its cell -/

theorem storage_of_holds (hi : Inv c s g) (hh : Holds c g t k st pos) :
    (cellAt c s pos).storage.isSome = st.stored := by
  obtain ⟨rfl, -, hstage, -⟩ := hh
  have hcell := Nat.mod_lt k c.capacity_pos
  rw [cellAt, c.slot_word, ← hstage]
  cases hst : (g.stage (k % c.capacity)).stored
  · rw [hi.cells.dead _ hcell hst]; rfl
  · obtain ⟨v, hv, -⟩ := hi.cells.live _ hcell hst
    rw [hv]; rfl

/-- CORRECT: the consumer of ticket `k` returns what the producer of ticket `k` built, every ticket
    is built and taken at most once, elements are built only in empty cells and moved out of or
    destroyed only in occupied ones, and with no call in progress the live elements are exactly those
    of the tickets from `dequeue_pos_` up to `enqueue_pos_`, none lost, all reached by the
    destructor. -/
theorem tickets_exact (s : State T c.w) (h : Reach c s) :
    s.taken ⊆ s.built ∧ (s.built.map Prod.fst).Nodup ∧ (s.taken.map Prod.fst).Nodup ∧
    (∀ t x, s.pcs t = .returned (.popped (some x)) → (s.ticket t, x) ∈ s.taken) ∧
    (∀ t v pos, s.pcs t = .pushBuild v pos →
      pos = word c.w (s.ticket t) ∧ (cellAt c s pos).storage = none) ∧
    (∀ t pos, s.pcs t = .popMove pos →
      pos = word c.w (s.ticket t) ∧ (cellAt c s pos).storage.isSome) ∧
    (∀ t pos x, s.pcs t = .popDestroy pos x →
      pos = word c.w (s.ticket t) ∧ (cellAt c s pos).storage.isSome) ∧
    (Quiescent s →
      s.dequeuePos = word c.w s.deq ∧ s.enqueuePos = word c.w s.enq ∧
      s.deq ≤ s.enq ∧ s.enq ≤ s.deq + c.capacity ∧
      (∀ k < s.enq, ∃ v, (k, v) ∈ s.built) ∧ (∀ k < s.deq, ∃ x, (k, x) ∈ s.taken) ∧
      (∀ i < c.capacity, ∀ x, (s.cells i).storage = some x ↔
        ∃ k, s.deq ≤ k ∧ k < s.enq ∧ k % c.capacity = i ∧ (k, x) ∈ s.built) ∧
      ∃ cells xs, destroyFrom c c.capacity s.cells s.dequeuePos s.enqueuePos = some (cells, xs) ∧
        xs.length = s.enq - s.deq ∧ (∀ j x, xs[j]? = some x → (s.deq + j, x) ∈ s.built) ∧
        ∀ i < c.capacity, (cells i).storage = none) := by
  obtain ⟨g, hi⟩ := h.inv
  have ho := h.owed
  refine ⟨hi.logs.taken_built, hi.logs.built_nodup, hi.logs.taken_nodup, fun t x hpc => ?_,
    fun t v pos hpc => ?_, fun t pos hpc => ?_, fun t pos x hpc => ?_, fun hq => ?_⟩
  · have hcarried := ho.carried t
    rwa [hpc] at hcarried
  · exact ⟨(hi.okAt hpc).1, Option.not_isSome_iff_eq_none.mp
      (by rw [storage_of_holds hi (hi.okAt hpc)]; exact Bool.false_ne_true)⟩
  · exact ⟨(hi.okAt hpc).1, storage_of_holds hi (hi.okAt hpc)⟩
  · exact ⟨(hi.okAt hpc).1, storage_of_holds hi (hi.okAt hpc)⟩
  · exact ⟨hi.deq, hi.enq, hi.order.deq_le, hi.order.enq_le, fun k => hq.built_all ho,
      fun k => hq.taken_all ho, fun i hlt => hq.live_iff hi hlt, hq.destroyed hi ho⟩

/-- Two cells and four-bit words. -/
def cfg2 : Cfg := ⟨⟨4, 2, by decide, by decide, by decide⟩, by decide⟩

/-- A push whose first exchange fails spuriously, and a pop by another thread overtaking a second
    push. -/
def sampleRun : List (ℕ × Act ℕ) :=
  [(0, .tryPush 7), (0, .go), (0, .go), (0, .spurious), (0, .go), (0, .go), (2, .tryPush 8), (2, .go),
    (0, .go), (0, .go), (1, .tryPop), (1, .go), (1, .go), (1, .go), (2, .go), (1, .go), (2, .go),
    (1, .go), (1, .go), (2, .go), (2, .go)]

theorem tickets_exact_sampleRun : ∃ s, run (step cfg2) (init cfg2) sampleRun = some s ∧
    s.built = [(0, 7), (1, 8)] ∧ s.taken = [(0, 7)] ∧ s.taken ⊆ s.built :=
  ⟨_, rfl, rfl, rfl,
    (tickets_exact _ (reach_run sampleRun .init rfl (by decide) (by decide))).1⟩

end Metl.MpmcQueue
