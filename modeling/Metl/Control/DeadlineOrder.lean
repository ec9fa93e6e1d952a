import Metl.Control.DeadlineScheduler

/-! What the deadline scheduler dispatches, for all behaviours of the polls.

    Every entry that was ever pushed is pending, has been polled, or was cancelled or cleared, and is
    so once (`account`). A slot of the queue is held back for every poll on the stack (`room`), so a
    poll that gives a new deadline finds room for it. -/

namespace Metl.DeadlineScheduler
open Metl.Schemes Metl.FixedPriorityQueue

variable {Tick T F : Type} [LinearOrder Tick] {capacity : ℕ} {w w' : World Tick T F}
  {r : Activation Tick T F}

/-! ### The invariant -/

/-- How many polls are on the stack. -/
def polls (w : World Tick T F) : ℕ := w.runs.countP fun r => r.polling.isSome

/-- Every entry pushed is in one place, and numbered in the order of pushing. -/
structure Accounted (w : World Tick T F) : Prop where
  account : (w.queue ++ w.polled ++ w.dropped).Perm w.pushed
  serials : w.pushed.map Entry.serial = List.range w.pushed.length
  sequences : ∀ e ∈ w.pushed, e.sequence = e.serial % 2 ^ 64
  next : w.nextSequence = w.pushed.length % 2 ^ 64

structure Inv (capacity : ℕ) (w : World Tick T F) : Prop where
  heap : HeapFrom laterDeadline w.queue 0
  room : w.queue.length + w.pollDepth ≤ capacity
  depth : w.pollDepth = polls w
  /-- A `run_due` that is not the innermost one waits for a poll. -/
  waiting : ∀ r ∈ w.runs.tail, r.polling.isSome = true
  bounded : ∀ r, r ∈ w.runs ∨ r ∈ w.returned → r.dispatched ≤ r.maxDispatches
  accounted : Accounted w

/-! ### What happens to entries -/

omit [LinearOrder Tick] in
/-- A new entry. -/
theorem Accounted.push (h : Accounted w) {deadline : Tick} {task : T} {poll : F}
    {queue : List (Entry Tick T F)} (hqueue : queue.Perm (newEntry w deadline task poll :: w.queue)) :
    Accounted (afterPush w (newEntry w deadline task poll) queue) where
  account := by
    have hmove : ((w.queue ++ w.polled ++ w.dropped) ++ [newEntry w deadline task poll]).Perm
        ([newEntry w deadline task poll] ++ (w.queue ++ w.polled ++ w.dropped)) := List.perm_append_comm
    have hold := h.account.append_right [newEntry w deadline task poll]
    refine List.Perm.trans ?_ (hmove.symm.trans hold)
    simpa [afterPush] using hqueue.append_right (w.polled ++ w.dropped)
  serials := by
    simp [afterPush, newEntry, List.range_succ, h.serials]
  sequences := by
    intro e he
    rcases List.mem_append.mp he with hold | hnew
    · exact h.sequences e hold
    · rw [List.mem_singleton.mp hnew]
      exact h.next
  next := by
    simp only [afterPush, List.length_append, List.length_singleton, h.next]
    omega

omit [LinearOrder Tick] in
/-- Entries move from the queue to the polled or to the dropped ones. -/
theorem Accounted.move (h : Accounted w) (hnext : w'.nextSequence = w.nextSequence)
    (hpushed : w'.pushed = w.pushed)
    (hperm : (w'.queue ++ w'.polled ++ w'.dropped).Perm (w.queue ++ w.polled ++ w.dropped)) :
    Accounted w' where
  account := by
    rw [hpushed]
    exact hperm.trans h.account
  serials := by
    rw [hpushed]
    exact h.serials
  sequences := by
    rw [hpushed]
    exact h.sequences
  next := by
    rw [hpushed, hnext]
    exact h.next

/-- The heap has room for one more: the push is made. -/
theorem push_room {l : List (Entry Tick T F)} (hheap : HeapFrom laterDeadline l 0)
    (hroom : l.length < capacity) (e : Entry Tick T F) :
    ∃ l', tryPush laterDeadline capacity l e = some l' ∧ HeapFrom laterDeadline l' 0 ∧ l'.Perm (e :: l) :=
  tryPush_spec laterDeadline_strictWeak hheap (Nat.ne_of_lt hroom) e

/-! ### User code -/

theorem trySchedule_spec (hinv : Inv capacity w) (task : T) (poll : F) (deadline : Tick) :
    ∃ out, trySchedule capacity w task (some poll) deadline = some out ∧ Inv capacity out.1 ∧
      (capacity ≤ w.queue.length + polls w ∧ out = (w, false) ∨
        w.queue.length + polls w < capacity ∧ out.2 = true ∧
          out.1.queue.Perm (newEntry w deadline task poll :: w.queue) ∧
          out.1.pushed = w.pushed ++ [newEntry w deadline task poll]) := by
  have hdepth := hinv.depth
  have hreserved : reserved w = w.pollDepth := rfl
  simp only [trySchedule, Option.map_some]
  by_cases hfull : capacity ≤ w.queue.length + reserved w
  · simp only [if_pos hfull]
    exact ⟨_, rfl, hinv, Or.inl ⟨by omega, rfl⟩⟩
  · simp only [if_neg hfull]
    have hroom : w.queue.length < capacity := by omega
    obtain ⟨queue, hpush, hheap, hperm⟩ := push_room hinv.heap hroom (newEntry w deadline task poll)
    have hlen := hperm.length_eq
    rw [List.length_cons] at hlen
    simp only [hpush]
    refine ⟨_, rfl, ?_, Or.inr ⟨by omega, rfl, hperm, rfl⟩⟩
    refine ⟨hheap, ?_, hinv.depth, hinv.waiting, hinv.bounded, hinv.accounted.push hperm⟩
    change queue.length + w.pollDepth ≤ capacity
    omega

theorem beginRun_inv (hinv : Inv capacity w) (huser : userCode w = true) (now : Tick)
    (maxDispatches : ℕ) : Inv capacity (beginRun w now maxDispatches) := by
  refine ⟨hinv.heap, hinv.room, ?_, ?_, ?_, hinv.accounted.move rfl rfl (List.Perm.refl _)⟩
  · simpa [beginRun, polls] using hinv.depth
  · intro r hr
    have hr : r ∈ w.runs := hr
    cases hruns : w.runs with
    | nil => simp [hruns] at hr
    | cons q outer =>
      rw [hruns] at hr
      rcases List.mem_cons.mp hr with rfl | hr
      · simpa [userCode, hruns] using huser
      · exact hinv.waiting r (by rw [hruns]; exact hr)
  · rintro q (hq | hq)
    · rcases List.mem_cons.mp hq with rfl | hq
      · exact Nat.zero_le _
      · exact hinv.bounded q (Or.inl hq)
    · exact hinv.bounded q (Or.inr hq)

theorem clear_inv (hinv : Inv capacity w) : Inv capacity (clear w) := by
  have hroom := hinv.room
  refine ⟨?_, ?_, hinv.depth, hinv.waiting, hinv.bounded, hinv.accounted.move rfl rfl ?_⟩
  · intro j _ _ a b ha _
    cases ha
  · change 0 + w.pollDepth ≤ capacity
    omega
  · have hmove : (w.polled ++ w.dropped ++ w.queue).Perm (w.queue ++ (w.polled ++ w.dropped)) :=
      List.perm_append_comm
    simpa [clear] using hmove

variable {outer : List (Activation Tick T F)}

/-- The innermost activation goes on or returns; those below it are as they were. -/
theorem waiting_outer (hinv : Inv capacity w) (hruns : w.runs = r :: outer) :
    ∀ q ∈ outer.tail, q.polling.isSome = true := by
  intro q hq
  refine hinv.waiting q ?_
  rw [hruns]
  exact List.mem_of_mem_tail hq

/-- What a turn of `run_due` does: it polls an entry that is due and before all others, or it returns
    because it has polled enough or nothing is due. -/
theorem advance_spec (hinv : Inv capacity w) (hruns : w.runs = r :: outer) (hloop : r.polling = none) :
    ∃ w', advance w r outer = some w' ∧ Inv capacity w' ∧ w'.pushed = w.pushed ∧
      (w'.runs = outer ∧ w'.returned = r :: w.returned ∧ w'.queue = w.queue ∧
          (r.dispatched = r.maxDispatches ∨ ∀ e ∈ w.queue, r.now < e.deadline) ∨
        ∃ due ∈ w.queue, due.deadline ≤ r.now ∧ r.dispatched < r.maxDispatches ∧
          (∀ e ∈ w.queue, laterDeadline due e = false) ∧ w.queue.Perm (due :: w'.queue) ∧
          w'.polled = w.polled ++ [due] ∧
          w'.runs = { r with dispatched := r.dispatched + 1, polling := some due } :: outer) := by
  have hmem : r ∈ w.runs := by simp [hruns]
  have hbound := hinv.bounded r (Or.inl hmem)
  have hdepth := hinv.depth
  have hroom := hinv.room
  have houter : ∀ q ∈ outer, q ∈ w.runs := by
    intro q hq
    rw [hruns]
    exact List.mem_cons_of_mem r hq
  have hpolls : polls w = outer.countP fun q => q.polling.isSome := by
    simp [polls, hruns, hloop]
  have hdone : Inv capacity { w with runs := outer, returned := r :: w.returned } := by
    refine ⟨hinv.heap, hinv.room, ?_, waiting_outer hinv hruns, ?_,
      hinv.accounted.move rfl rfl (List.Perm.refl _)⟩
    · rw [hdepth, hpolls]
      rfl
    · rintro q (hq | hq)
      · exact hinv.bounded q (Or.inl (houter q hq))
      · rcases List.mem_cons.mp hq with rfl | hq
        · exact hbound
        · exact hinv.bounded q (Or.inr hq)
  unfold advance
  dsimp only
  cases htop : w.queue[0]? with
  | none =>
    have hempty : w.queue = [] := by
      rw [List.getElem?_eq_none_iff] at htop
      exact List.eq_nil_of_length_eq_zero (by omega)
    exact ⟨_, rfl, hdone, rfl, Or.inl ⟨rfl, rfl, rfl, Or.inr (by simp [hempty])⟩⟩
  | some due =>
    have hdue : due ∈ w.queue := List.mem_of_getElem? htop
    have hfirst : ∀ e ∈ w.queue, laterDeadline due e = false :=
      fun e he => hinv.heap.top laterDeadline_strictWeak htop he
    dsimp only
    split
    · rename_i hgo
      obtain ⟨queue, hpop, hheap, hperm⟩ := pop_spec laterDeadline_strictWeak hinv.heap htop
      have hlen := hperm.length_eq
      rw [List.length_cons] at hlen
      rw [hpop]
      refine ⟨_, rfl, ?_, rfl, Or.inr ⟨due, hdue, not_lt.mp hgo.2, hgo.1, hfirst, hperm, rfl, rfl⟩⟩
      refine ⟨hheap, ?_, ?_, ?_, ?_, hinv.accounted.move rfl rfl ?_⟩
      · change queue.length + (w.pollDepth + 1) ≤ capacity
        omega
      · simp only [polls, List.countP_cons, Option.isSome_some, if_true]
        omega
      · intro q hq
        exact hinv.waiting q (by rw [hruns]; exact hq)
      · rintro q (hq | hq)
        · rcases List.mem_cons.mp hq with rfl | hq
          · exact hgo.1
          · exact hinv.bounded q (Or.inl (houter q hq))
        · exact hinv.bounded q (Or.inr hq)
      · have hmove : (queue ++ (w.polled ++ [due]) ++ w.dropped).Perm
            (due :: queue ++ w.polled ++ w.dropped) := by
          refine List.Perm.append_right w.dropped ?_
          rw [← List.append_assoc]
          exact List.perm_append_comm
        exact hmove.trans ((hperm.symm.append_right _).append_right _)
    · rename_i hstop
      refine ⟨_, rfl, hdone, rfl, Or.inl ⟨rfl, rfl, rfl, ?_⟩⟩
      by_cases hmax : r.dispatched < r.maxDispatches
      · right
        intro e he
        have hlate : r.now < due.deadline := by
          by_contra hnot
          exact hstop ⟨hmax, hnot⟩
        rcases laterDeadline_false.mp (hfirst e he) with hlt | ⟨heq, -⟩
        · exact hlate.trans hlt
        · rwa [← heq]
      · left
        omega

/-- The return of a poll: a new deadline is always pushed. -/
theorem pollReturned_spec (hinv : Inv capacity w) {due : Entry Tick T F} (hruns : w.runs = r :: outer)
    (hpoll : r.polling = some due) (next : Option Tick) :
    ∃ w', pollReturned capacity w r outer due next = some w' ∧ Inv capacity w' ∧
      w'.runs = { r with polling := none } :: outer ∧
      match next with
      | none => w'.queue = w.queue ∧ w'.pushed = w.pushed
      | some deadline => w'.queue.Perm (newEntry w deadline due.task due.poll :: w.queue) ∧
          w'.pushed = w.pushed ++ [newEntry w deadline due.task due.poll] := by
  have hmem : r ∈ w.runs := by simp [hruns]
  have hdepth := hinv.depth
  have hroom := hinv.room
  have hpolls : polls w = (outer.countP fun q => q.polling.isSome) + 1 := by
    simp [polls, hruns, hpoll]
  have hpolls' : w.pollDepth - 1 = outer.countP fun q => q.polling.isSome := by omega
  have hwaiting : ∀ q ∈ outer, q.polling.isSome = true := by
    intro q hq
    exact hinv.waiting q (by rw [hruns]; exact hq)
  have hbounded : ∀ q, q ∈ ({ r with polling := none } :: outer) ∨ q ∈ w.returned →
      q.dispatched ≤ q.maxDispatches := by
    rintro q (hq | hq)
    · rcases List.mem_cons.mp hq with rfl | hq
      · exact hinv.bounded r (Or.inl hmem)
      · exact hinv.bounded q (Or.inl (by rw [hruns]; exact List.mem_cons_of_mem r hq))
    · exact hinv.bounded q (Or.inr hq)
  cases next with
  | none =>
    refine ⟨_, rfl, ⟨hinv.heap, ?_, ?_, hwaiting, hbounded,
      hinv.accounted.move rfl rfl (List.Perm.refl _)⟩, rfl, rfl, rfl⟩
    · change w.queue.length + (w.pollDepth - 1) ≤ capacity
      omega
    · simpa [polls] using hpolls'
  | some deadline =>
    have hfits : w.queue.length < capacity := by omega
    obtain ⟨queue, hpush, hheap, hperm⟩ := push_room hinv.heap hfits
      (newEntry w deadline due.task due.poll)
    have hlen := hperm.length_eq
    rw [List.length_cons] at hlen
    have hnew := hinv.accounted.push hperm
    refine ⟨_, by simp only [pollReturned, push, hpush]; rfl, ?_, rfl, hperm, rfl⟩
    refine ⟨hheap, ?_, ?_, hwaiting, hbounded, ⟨hnew.account, hnew.serials, hnew.sequences, hnew.next⟩⟩
    · change queue.length + (w.pollDepth - 1) ≤ capacity
      omega
    · simpa [polls, afterPush] using hpolls'

section Cancel
variable [DecidableEq T]

theorem cancel_spec (hinv : Inv capacity w) (task : T) : Inv capacity (cancel w task).1 ∧
    (cancel w task).1.queue.Perm (w.queue.filter fun e => e.task != task) ∧
    ((cancel w task).2 = true ↔ ∃ e ∈ w.queue, e.task = task) := by
  obtain ⟨hheap, hperm, hcount⟩ := eraseIf_spec laterDeadline_strictWeak (fun e => e.task == task) w.queue
  have hlen := hperm.length_eq
  have hless := List.length_filter_le (fun e => !(e.task == task)) w.queue
  have hroom := hinv.room
  refine ⟨⟨hheap, ?_, hinv.depth, hinv.waiting, hinv.bounded, hinv.accounted.move rfl rfl ?_⟩, hperm, ?_⟩
  · change (eraseIf laterDeadline (fun e => e.task == task) w.queue).1.length + w.pollDepth ≤ capacity
    omega
  · -- the entries cancelled are those the queue loses
    have hsplit := List.filter_append_perm (fun e : Entry Tick T F => e.task == task) w.queue
    have hmove : ((cancel w task).1.queue ++ w.polled ++ (w.dropped ++
        w.queue.filter fun e => e.task == task)).Perm
        ((w.queue.filter fun e => e.task == task) ++ (w.queue.filter fun e => !(e.task == task)) ++
          (w.polled ++ w.dropped)) := by
      have hback : ((cancel w task).1.queue ++ w.polled ++ w.dropped ++
          w.queue.filter fun e => e.task == task).Perm ((w.queue.filter fun e => e.task == task) ++
            ((cancel w task).1.queue ++ w.polled ++ w.dropped)) := List.perm_append_comm
      rw [← List.append_assoc]
      refine hback.trans ?_
      simp only [List.append_assoc]
      exact List.Perm.append_left _ (hperm.append_right _)
    refine hmove.trans ?_
    rw [List.append_assoc w.queue]
    exact hsplit.append_right (w.polled ++ w.dropped)
  · rw [cancel, bne_iff_ne, ne_eq, hcount]
    simp

/-- STEP: every action keeps the invariant. -/
theorem step_inv {a : Act Tick T F} (hinv : Inv capacity w)
    (hstep : step capacity w a = some w') : Inv capacity w' := by
  cases a with
  | schedule task fn deadline =>
    simp only [step] at hstep
    split at hstep
    · obtain ⟨out, htry, rfl⟩ := Option.map_eq_some_iff.mp hstep
      cases fn with
      | none => cases htry
      | some poll =>
        obtain ⟨out', htry', hinv', -⟩ := trySchedule_spec hinv task poll deadline
        rw [htry'] at htry
        cases htry
        exact hinv'
    · cases hstep
  | cancel task =>
    simp only [step] at hstep
    split at hstep
    · cases hstep
      exact (cancel_spec hinv task).1
    · cases hstep
  | clear =>
    simp only [step] at hstep
    split at hstep
    · cases hstep
      exact clear_inv hinv
    · cases hstep
  | runDue now maxDispatches =>
    simp only [step] at hstep
    split at hstep
    · rename_i huser
      cases hstep
      exact beginRun_inv hinv huser now maxDispatches
    · cases hstep
  | advance =>
    cases hruns : w.runs with
    | nil => simp [step, hruns] at hstep
    | cons r outer =>
      simp only [step, hruns] at hstep
      split at hstep
      · cases hstep
      · rename_i hloop
        obtain ⟨w₁, hadvance, hinv₁, -⟩ := advance_spec hinv hruns (by simpa using hloop)
        rw [hadvance] at hstep
        cases hstep
        exact hinv₁
  | ret next =>
    cases hruns : w.runs with
    | nil => simp [step, hruns] at hstep
    | cons r outer =>
      simp only [step, hruns] at hstep
      obtain ⟨due, hpoll, hreturn⟩ := Option.bind_eq_some_iff.mp hstep
      obtain ⟨w₁, hsome, hinv₁, -⟩ := pollReturned_spec hinv hruns hpoll next
      rw [hsome] at hreturn
      cases hreturn
      exact hinv₁

omit [DecidableEq T] in
theorem inv_init : Inv capacity (init : World Tick T F) where
  heap := by
    intro j _ _ a b ha _
    cases ha
  room := Nat.zero_le _
  depth := rfl
  waiting := by simp [init]
  bounded := by simp [init]
  accounted := ⟨List.Perm.refl _, rfl, by simp [init], rfl⟩

/-- RUN: the invariant holds in every state that the scheduler reaches. -/
theorem run_reaches_inv {acts : List (Act Tick T F)}
    (hrun : run (step capacity) init acts = some w) : Inv capacity w :=
  run_inv (fun _ _ _ => step_inv) acts init w inv_init hrun

/-! ### The contract -/

/-- `due` is before `e` by deadline and, at one deadline, in the order of scheduling. -/
def Before (due e : Entry Tick T F) : Prop :=
  due.deadline < e.deadline ∨ due.deadline = e.deadline ∧ due.serial < e.serial

/-- What holds in a state of the scheduler. -/
structure Contract (capacity : ℕ) (w : World Tick T F) : Prop where
  /-- There is room for every poll on the stack to be scheduled again. -/
  room : w.queue.length + polls w ≤ capacity
  /-- Every scheduling is pending, polled, cancelled or cleared, and is so once. -/
  account : (w.queue ++ w.polled ++ w.dropped).Perm w.pushed
  once : (w.queue ++ w.polled ++ w.dropped).Pairwise fun a b => a.serial ≠ b.serial
  schedules : ∀ task poll deadline, ∃ out,
    trySchedule capacity w task (some poll) deadline = some out ∧
      (capacity ≤ w.queue.length + polls w ∧ out = (w, false) ∨
        w.queue.length + polls w < capacity ∧ out.2 = true ∧
          out.1.queue.Perm (newEntry w deadline task poll :: w.queue) ∧
          out.1.pushed = w.pushed ++ [newEntry w deadline task poll])
  cancels : ∀ task, (cancel w task).1.queue.Perm (w.queue.filter fun e => e.task != task) ∧
    ((cancel w task).2 = true ↔ ∃ e ∈ w.queue, e.task = task)
  bounded : ∀ r, r ∈ w.runs ∨ r ∈ w.returned → r.dispatched ≤ r.maxDispatches
  /-- A `run_due` polls what is due and before everything else that is pending; it returns once it
      has polled as often as it may, or nothing is due. -/
  turn : ∀ r outer, w.runs = r :: outer → r.polling = none →
    ∃ w', step capacity w .advance = some w' ∧ w'.pushed = w.pushed ∧
      (w'.runs = outer ∧ w'.returned = r :: w.returned ∧ w'.queue = w.queue ∧
          (r.dispatched = r.maxDispatches ∨ ∀ e ∈ w.queue, r.now < e.deadline) ∨
        ∃ due ∈ w.queue, due.deadline ≤ r.now ∧ r.dispatched < r.maxDispatches ∧
          (∀ e ∈ w.queue, e ≠ due → Before due e) ∧ w.queue.Perm (due :: w'.queue) ∧
          w'.polled = w.polled ++ [due] ∧
          w'.runs = { r with dispatched := r.dispatched + 1, polling := some due } :: outer)
  /-- When its poll returns with a new deadline, the task is scheduled again. -/
  answer : ∀ r outer due, w.runs = r :: outer → r.polling = some due → ∀ next,
    ∃ w', step capacity w (.ret next) = some w' ∧
      w'.runs = { r with polling := none } :: outer ∧
      match next with
      | none => w'.queue = w.queue ∧ w'.pushed = w.pushed
      | some deadline => w'.queue.Perm (newEntry w deadline due.task due.poll :: w.queue) ∧
          w'.pushed = w.pushed ++ [newEntry w deadline due.task due.poll]

omit [LinearOrder Tick] [DecidableEq T] in
theorem Accounted.once (h : Accounted w) :
    (w.queue ++ w.polled ++ w.dropped).Pairwise fun a b => a.serial ≠ b.serial := by
  have hsymm : Std.Symm fun a b : Entry Tick T F => a.serial ≠ b.serial := ⟨fun _ _ h => h.symm⟩
  refine (h.account.pairwise_iff fun hne => hne.symm).mpr ?_
  have hnodup : (w.pushed.map Entry.serial).Nodup := by
    rw [h.serials]
    exact List.nodup_range
  exact List.pairwise_map.mp hnodup

/-- CORRECT: with fewer than `2^64` schedulings, whatever the polls do, no scheduling is lost and
    every dispatch is of the earliest entry that is due. -/
theorem dispatch_contract (capacity : ℕ) (acts : List (Act Tick T F)) (w : World Tick T F)
    (hrun : run (step capacity) init acts = some w) (hfew : w.pushed.length < 2 ^ 64) :
    Contract capacity w := by
  have hinv := run_reaches_inv hrun
  have honce := hinv.accounted.once
  -- below 2^64 the sequence number is the order of scheduling
  have hsequence : ∀ e ∈ w.queue, e.sequence = e.serial := by
    intro e he
    have hmem : e ∈ w.pushed :=
      hinv.accounted.account.subset (List.mem_append_left _ (List.mem_append_left _ he))
    have hserial : e.serial ∈ w.pushed.map Entry.serial := List.mem_map_of_mem hmem
    rw [hinv.accounted.serials, List.mem_range] at hserial
    rw [hinv.accounted.sequences e hmem, Nat.mod_eq_of_lt (by omega)]
  refine
    { room := hinv.depth ▸ hinv.room
      account := hinv.accounted.account
      once := honce
      schedules := fun task poll deadline => ?_
      cancels := fun task => (cancel_spec hinv task).2
      bounded := hinv.bounded
      turn := fun r outer hruns hloop => ?_
      answer := fun r outer due hruns hpoll next => ?_ }
  · obtain ⟨out, htry, -, hout⟩ := trySchedule_spec hinv task poll deadline
    exact ⟨out, htry, hout⟩
  · obtain ⟨w', hadvance, -, hpushed, hcases⟩ := advance_spec hinv hruns hloop
    refine ⟨w', by simp [step, hruns, hloop, hadvance], hpushed, ?_⟩
    rcases hcases with hdone | ⟨due, hdue, hlate, hmax, hfirst, hrest⟩
    · exact Or.inl hdone
    · refine Or.inr ⟨due, hdue, hlate, hmax, ?_, hrest⟩
      intro e he hne
      rcases laterDeadline_false.mp (hfirst e he) with hlt | ⟨heq, hle⟩
      · exact Or.inl hlt
      · rw [hsequence due hdue, hsequence e he] at hle
        have hqueue : w.queue.Pairwise fun a b => a.serial ≠ b.serial :=
          (List.pairwise_append.mp (List.pairwise_append.mp honce).1).1
        have hsymm : Std.Symm fun a b : Entry Tick T F => a.serial ≠ b.serial :=
          ⟨fun _ _ h => h.symm⟩
        have hserial := hqueue.forall hdue he (Ne.symm hne)
        exact Or.inr ⟨heq, by omega⟩
  · obtain ⟨w', hreturn, -, hruns', hnext⟩ := pollReturned_spec hinv hruns hpoll next
    exact ⟨w', by simp [step, hruns, hpoll, hreturn], hruns', hnext⟩

end Cancel

/-- Two tasks are due at one deadline. The poll of the first fills the scheduler and is scheduled
    again; the second comes first. -/
def sampleActs : List (Act ℕ ℕ ℕ) :=
  [.schedule 1 (some 0) 5, .schedule 2 (some 0) 5, .runDue 5 2, .advance, .schedule 3 (some 0) 4,
    .schedule 4 (some 0) 4, .ret (some 5), .advance, .ret none, .advance, .runDue 9 9, .advance]

theorem dispatch_contract_sample : ∃ w, run (step 3) init sampleActs = some w ∧
    w.polled.map Entry.task = [1, 3, 2] ∧ Contract 3 w := by
  have houtcome : (run (step 3) init sampleActs).map (fun w =>
      (w.polled.map Entry.task, decide (w.pushed.length < 2 ^ 64))) =
      some ([1, 3, 2], true) := by
    decide +kernel
  obtain ⟨w, hrun, hw⟩ := Option.map_eq_some_iff.mp houtcome
  obtain ⟨hpolled, hfew⟩ := Prod.mk.inj hw
  exact ⟨w, hrun, hpolled, dispatch_contract 3 sampleActs w hrun (of_decide_eq_true hfew)⟩

end Metl.DeadlineScheduler
