import Metl.Control.Scheduler
import Metl.Schemes.Probing
import Metl.Schemes.Run
import Metl.Schemes.Turns

/-! The round contract of the scheduler, for all behaviours of the polls.

    An attachment is known by its number, and numbers are reused. The invariant says that a number
    stands for one attachment among the attached ones and those a running round remembers, so that
    `holds` and `remove`, which compare numbers, speak of the attachment they mean. -/

namespace Metl.Scheduler
open Metl.Schemes

variable {T F : Type} {capacity : ℕ} {w w' : World T F} {r : Round T F}

/-! ### The invariant -/

/-- The attached entries. -/
structure Attached (capacity : ℕ) (w : World T F) : Prop where
  bounded : w.tasks.length ≤ capacity
  order : w.tasks.Pairwise fun a b => a.serial < b.serial
  numbers : w.tasks.Pairwise fun a b => a.attachment ≠ b.attachment
  addresses : w.tasks.Pairwise fun a b => a.task ≠ b.task
  made : ∀ a ∈ w.tasks, a.serial < w.serials
  range : ∀ a ∈ w.tasks, a.attachment < attachmentNumbers capacity
  next : w.nextAttachment < attachmentNumbers capacity

/-- What a round has done with its snapshot. -/
structure Turned (capacity : ℕ) (r : Round T F) : Prop where
  bounded : r.snapshot.length ≤ capacity
  /-- The snapshot is in the order of attaching, and older than the round. -/
  order : r.snapshot.Pairwise fun a b => a.serial < b.serial
  before : ∀ e ∈ r.snapshot, e.serial < r.began
  /-- The round has polled the entries that were attached at their turn. -/
  turns : r.live.length = r.index + r.polling.toNat
  within : r.index + r.polling.toNat ≤ r.snapshot.length
  polled : r.polled = taken r.snapshot r.live
  current : r.polling = true → ∃ e, r.snapshot[r.index]? = some e ∧ r.polled.getLast? = some e
  answered : r.answers.length + r.polling.toNat = r.polled.length
  value : r.stillRunning = r.answers.count true

theorem Turned.once (ht : Turned capacity r) :
    r.polled.Pairwise (fun a b => a.serial < b.serial) ∧ ∀ e ∈ r.polled, e.serial < r.began := by
  have hsub := taken_sublist r.snapshot r.live
  rw [← ht.polled] at hsub
  exact ⟨ht.order.sublist hsub, fun e he => ht.before e (hsub.subset he)⟩

/-- A round that has returned: every entry has had its turn. -/
structure Over (capacity : ℕ) (w : World T F) (p : Round T F × ℕ) : Prop where
  turned : Turned capacity p.1
  since : p.1.began ≤ w.serials
  complete : p.1.live.length = p.1.snapshot.length
  polling : p.1.polling = false
  value : p.2 = p.1.answers.count true

/-- A number or a serial that an entry of the snapshot shares with an attached entry names the same
    attachment. -/
structure Remembered (w : World T F) (r : Round T F) : Prop where
  since : r.began ≤ w.serials
  same : ∀ e ∈ r.snapshot, ∀ a ∈ w.tasks,
    a.attachment = e.attachment ∨ a.serial = e.serial → a = e

structure Inv (capacity : ℕ) (w : World T F) : Prop where
  attached : Attached capacity w
  turned : ∀ r ∈ w.rounds, Turned capacity r
  remembered : ∀ r ∈ w.rounds, Remembered w r
  /-- A round that is not the innermost one waits for its poll. -/
  waiting : ∀ r ∈ w.rounds.tail, r.polling = true
  returned : ∀ p ∈ w.returned, Over capacity w p

/-! ### Entries by number -/

variable {n : ℕ} {e : Entry T F} {task : T} {poll : F} {out : World T F × Bool}
  {outer : List (Round T F)}

theorem holds_iff : holds w n = true ↔ ∃ a ∈ w.tasks, a.attachment = n := by
  simp [holds]

theorem inUse_iff : inUse w n = true ↔
    ∃ e ∈ w.tasks ++ w.rounds.flatMap Round.snapshot, e.attachment = n := by
  simp only [inUse, Bool.or_eq_true, holds_iff, List.any_eq_true, beq_iff_eq, List.mem_append,
    List.mem_flatMap]
  constructor
  · rintro (⟨a, ha, hn⟩ | ⟨r, hr, e, he, hn⟩)
    · exact ⟨a, Or.inl ha, hn⟩
    · exact ⟨e, Or.inr ⟨r, hr, he⟩, hn⟩
  · rintro ⟨e, he | ⟨r, hr, he⟩, hn⟩
    · exact Or.inl ⟨e, he, hn⟩
    · exact Or.inr ⟨r, hr, e, he, hn⟩

/-- Among attached and remembered entries, a number answers for the attachment. -/
theorem Remembered.holds_iff_mem (hr : Remembered w r) (he : e ∈ r.snapshot) :
    holds w e.attachment = true ↔ e ∈ w.tasks := by
  rw [holds_iff]
  constructor
  · rintro ⟨a, ha, hn⟩
    rwa [← hr.same e he a ha (Or.inl hn)]
  · intro hmem
    exact ⟨e, hmem, rfl⟩

theorem Remembered.serial_iff_mem (hr : Remembered w r) (he : e ∈ r.snapshot) :
    (w.tasks.any fun a => a.serial == e.serial) = true ↔ e ∈ w.tasks := by
  simp only [List.any_eq_true, beq_iff_eq]
  constructor
  · rintro ⟨a, ha, hs⟩
    rwa [← hr.same e he a ha (Or.inr hs)]
  · intro hmem
    exact ⟨e, hmem, rfl⟩

/-- Of entries with distinct keys, erasing the first with some key erases the only one. -/
theorem eraseP_eq_filter {α β : Type*} [DecidableEq β] (key : α → β) (k : β) {l : List α}
    (hl : l.Pairwise fun a b => key a ≠ key b) :
    l.eraseP (fun a => key a == k) = l.filter fun a => key a != k := by
  induction l with
  | nil => rfl
  | cons a l ih =>
    obtain ⟨hhead, htail⟩ := List.pairwise_cons.mp hl
    by_cases hk : key a = k
    · have hrest : l.filter (fun b => key b != k) = l := by
        refine List.filter_eq_self.mpr ?_
        intro b hb
        simpa [hk] using Ne.symm (hhead b hb)
      simp [hk, hrest]
    · simp [hk, ih htail]

/-! ### Taking a number -/

/-- A number that is free, or the proof that the loop has seen every candidate in use. -/
theorem takeLoop_spec (w : World T F) (tries : ℕ) {next : ℕ} (hnext : next < attachmentNumbers capacity) :
    (takeLoop capacity w tries next).1 < attachmentNumbers capacity ∧
      ((∃ n < attachmentNumbers capacity, inUse w n = false ∧
          (takeLoop capacity w tries next).2 = some n) ∨ ((takeLoop capacity w tries next).2 = none ∧
          ∀ j < tries, inUse w (bucket (attachmentNumbers capacity) next j) = true)) := by
  induction tries generalizing next with
  | zero => exact ⟨hnext, Or.inr ⟨rfl, by simp⟩⟩
  | succ tries ih =>
    have hnext' : (if next + 1 = attachmentNumbers capacity then 0 else next + 1) =
        bucket (attachmentNumbers capacity) next 1 := by
      unfold bucket
      split
      · rename_i heq
        rw [heq, Nat.mod_self]
      · rw [Nat.mod_eq_of_lt (by omega)]
    have hlt := bucket_lt (Nat.zero_lt_of_lt hnext) next 1
    simp only [takeLoop, hnext']
    cases huse : inUse w next with
    | false => exact ⟨hlt, Or.inl ⟨next, hnext, huse, rfl⟩⟩
    | true =>
      obtain ⟨hrange, hcases⟩ := ih hlt
      refine ⟨hrange, ?_⟩
      rcases hcases with hfree | ⟨hnone, hseen⟩
      · exact Or.inl hfree
      · refine Or.inr ⟨hnone, ?_⟩
        intro j hj
        rcases j with - | j
        · rwa [bucket_zero hnext]
        · have hshift : bucket (attachmentNumbers capacity)
              (bucket (attachmentNumbers capacity) next 1) j =
              bucket (attachmentNumbers capacity) next (j + 1) := by
            simp only [bucket, Nat.mod_add_mod]
            congr 1
            omega
          rw [← hshift]
          exact hseen j (by omega)

/-- If every number is in use, the attached and the remembered entries are at least as many. -/
theorem numbers_le (hall : ∀ n < attachmentNumbers capacity, inUse w n = true) :
    attachmentNumbers capacity ≤ w.tasks.length + (w.rounds.flatMap Round.snapshot).length := by
  have hsub : List.range (attachmentNumbers capacity) ⊆
      (w.tasks ++ w.rounds.flatMap Round.snapshot).map Entry.attachment := by
    intro n hn
    obtain ⟨e, he, hen⟩ := inUse_iff.mp (hall n (List.mem_range.mp hn))
    exact List.mem_map.mpr ⟨e, he, hen⟩
  simpa using (List.nodup_range.subperm hsub).length_le

variable [DecidableEq T]

/-- What `try_attach` can do: report false and leave the tasks alone, or append an attachment with
    a number that nothing uses. -/
inductive AttachCases (capacity : ℕ) (w : World T F) (task : T) (poll : F) :
    World T F × Bool → Prop
  | full (hfull : w.tasks.length = capacity) : AttachCases capacity w task poll (w, false)
  | exhausted {next : ℕ} (hnext : next < attachmentNumbers capacity)
      (hall : ∀ n < attachmentNumbers capacity, inUse w n = true) :
      AttachCases capacity w task poll ({ w with nextAttachment := next }, false)
  | attached {next n : ℕ} (hnext : next < attachmentNumbers capacity)
      (hroom : w.tasks.length ≠ capacity) (hn : n < attachmentNumbers capacity)
      (hfree : inUse w n = false) :
      AttachCases capacity w task poll
        ({ w with
            tasks := w.tasks ++ [⟨task, poll, n, w.serials⟩]
            nextAttachment := next
            serials := w.serials + 1 }, true)

theorem tryAttachImpl_cases (hnext : w.nextAttachment < attachmentNumbers capacity)
    (hfresh : isAttached w task = false) (poll : F) :
    ∃ out, tryAttachImpl capacity w task (some poll) = some out ∧
      AttachCases capacity w task poll out := by
  obtain ⟨hrange, hcases⟩ := takeLoop_spec w (attachmentNumbers capacity) hnext
  simp only [tryAttachImpl, hfresh, Bool.false_eq_true, if_false, Option.map_some, tryTakeAttachment]
  by_cases hfull : w.tasks.length = capacity
  · exact ⟨_, rfl, by simpa [hfull] using AttachCases.full hfull⟩
  · simp only [if_neg hfull]
    rcases hcases with ⟨n, hn, hfree, hsome⟩ | ⟨hnone, hseen⟩
    · rw [hsome]
      exact ⟨_, rfl, AttachCases.attached hrange hfull hn hfree⟩
    · rw [hnone]
      refine ⟨_, rfl, AttachCases.exhausted hrange ?_⟩
      intro n hn
      obtain ⟨d, hd, rfl⟩ := exists_bucket w.nextAttachment hn
      exact hseen d hd

/-! ### What a step does to the attachments -/

omit [DecidableEq T] in
/-- Fewer tasks. -/
theorem Attached.sublist (h : Attached capacity w) (hsub : w'.tasks.Sublist w.tasks)
    (hserials : w'.serials = w.serials) (hnext : w'.nextAttachment = w.nextAttachment) :
    Attached capacity w' where
  bounded := hsub.length_le.trans h.bounded
  order := h.order.sublist hsub
  numbers := h.numbers.sublist hsub
  addresses := h.addresses.sublist hsub
  made := fun a ha => hserials ▸ h.made a (hsub.subset ha)
  range := fun a ha => h.range a (hsub.subset ha)
  next := hnext ▸ h.next

/-- One more task. -/
theorem Attached.attach (h : Attached capacity w) (hfresh : isAttached w task = false)
    (hout : AttachCases capacity w task poll out) : Attached capacity out.1 := by
  cases hout with
  | full hfull => exact h
  | exhausted hnext hall => exact ⟨h.bounded, h.order, h.numbers, h.addresses, h.made, h.range, hnext⟩
  | @attached next n hnext hroom hn hfree =>
    have hbound := h.bounded
    have hunused : ∀ a ∈ w.tasks, a.attachment ≠ n := by
      intro a ha heq
      rw [inUse_iff.mpr ⟨a, List.mem_append_left _ ha, heq⟩] at hfree
      cases hfree
    have haddress : ∀ a ∈ w.tasks, a.task ≠ task := by
      simpa [isAttached] using hfresh
    constructor
    · simp only [List.length_append, List.length_singleton]
      omega
    · simpa [List.pairwise_append, h.order] using h.made
    · simpa [List.pairwise_append, h.numbers] using hunused
    · simpa [List.pairwise_append, h.addresses] using haddress
    · intro a ha
      rcases List.mem_append.mp ha with hold | hnew
      · exact Nat.lt_succ_of_lt (h.made a hold)
      · rw [List.mem_singleton.mp hnew]
        exact Nat.lt_succ_self _
    · intro a ha
      rcases List.mem_append.mp ha with hold | hnew
      · exact h.range a hold
      · rw [List.mem_singleton.mp hnew]
        exact hn
    · exact hnext

/-- `w'` comes after `w`: what is attached was attached before, or is new with a number that
    nothing used. -/
structure Later (w w' : World T F) : Prop where
  serials : w.serials ≤ w'.serials
  tasks : ∀ a ∈ w'.tasks, a ∈ w.tasks ∨ (w.serials ≤ a.serial ∧ inUse w a.attachment = false)

omit [DecidableEq T] in
theorem Later.of_sublist (hsub : w'.tasks.Sublist w.tasks) (hserials : w'.serials = w.serials) :
    Later w w' :=
  ⟨hserials.ge, fun _ ha => Or.inl (hsub.subset ha)⟩

omit [DecidableEq T] in
theorem Later.of_attach (hout : AttachCases capacity w task poll out) : Later w out.1 := by
  cases hout with
  | full hfull => exact ⟨le_rfl, fun _ ha => Or.inl ha⟩
  | exhausted hnext hall => exact ⟨le_rfl, fun _ ha => Or.inl ha⟩
  | attached hnext hroom hn hfree =>
    refine ⟨Nat.le_succ _, ?_⟩
    intro a ha
    rcases List.mem_append.mp ha with hold | hnew
    · exact Or.inl hold
    · rw [List.mem_singleton.mp hnew]
      exact Or.inr ⟨le_rfl, hfree⟩

omit [DecidableEq T] in
/-- A running round keeps its numbers to itself. -/
theorem Remembered.later (hr : Remembered w r) (ht : Turned capacity r) (hrun : r ∈ w.rounds)
    (hlater : Later w w') : Remembered w' r := by
  refine ⟨hr.since.trans hlater.serials, ?_⟩
  intro e he a ha hsame
  rcases hlater.tasks a ha with hold | ⟨hnew, hfree⟩
  · exact hr.same e he a hold hsame
  · exfalso
    rcases hsame with hnumber | hserial
    · have hmem : e ∈ w.tasks ++ w.rounds.flatMap Round.snapshot :=
        List.mem_append_right _ (List.mem_flatMap.mpr ⟨r, hrun, he⟩)
      rw [inUse_iff.mpr ⟨e, hmem, hnumber.symm⟩] at hfree
      cases hfree
    · have hbefore := ht.before e he
      have hsince := hr.since
      omega

omit [DecidableEq T] in
theorem Over.later {p : Round T F × ℕ} (hover : Over capacity w p)
    (hserials : w.serials ≤ w'.serials) : Over capacity w' p :=
  ⟨hover.turned, hover.since.trans hserials, hover.complete, hover.polling, hover.value⟩

/-! ### Every step -/

omit [DecidableEq T] in
/-- User code changes the attachments only. -/
theorem Inv.user (hinv : Inv capacity w) (hattached : Attached capacity w')
    (hlater : Later w w') (hrounds : w'.rounds = w.rounds) (hreturned : w'.returned = w.returned) :
    Inv capacity w' where
  attached := hattached
  turned := by
    rw [hrounds]
    exact hinv.turned
  remembered := by
    rw [hrounds]
    exact fun r hr => (hinv.remembered r hr).later (hinv.turned r hr) hr hlater
  waiting := by
    rw [hrounds]
    exact hinv.waiting
  returned := by
    rw [hreturned]
    exact fun p hp => (hinv.returned p hp).later hlater.serials

omit [DecidableEq T] in
/-- The innermost round moves on; the attachments may change. -/
theorem Inv.innermost (hinv : Inv capacity w) {r' : Round T F} (hrounds : w.rounds = r :: outer)
    (hattached : Attached capacity w') (hlater : Later w w') (hrounds' : w'.rounds = r' :: outer)
    (hreturned : w'.returned = w.returned) (hturned : Turned capacity r')
    (hsnapshot : r'.snapshot = r.snapshot) (hbegan : r'.began = r.began) : Inv capacity w' := by
  have hsubset : ∀ q ∈ outer, q ∈ w.rounds := by
    intro q hq
    rw [hrounds]
    exact List.mem_cons_of_mem r hq
  have hmem : r ∈ w.rounds := by simp [hrounds]
  refine ⟨hattached, ?_, ?_, ?_, ?_⟩
  · rw [hrounds']
    exact List.forall_mem_cons.mpr ⟨hturned, fun q hq => hinv.turned q (hsubset q hq)⟩
  · rw [hrounds']
    refine List.forall_mem_cons.mpr ⟨?_, ?_⟩
    · have hr := (hinv.remembered r hmem).later (hinv.turned r hmem) hmem hlater
      exact ⟨hbegan ▸ hr.since, hsnapshot ▸ hr.same⟩
    · intro q hq
      exact (hinv.remembered q (hsubset q hq)).later (hinv.turned q (hsubset q hq)) (hsubset q hq) hlater
  · have hwaiting := hinv.waiting
    rw [hrounds] at hwaiting
    rw [hrounds']
    exact hwaiting
  · rw [hreturned]
    exact fun p hp => (hinv.returned p hp).later hlater.serials

omit [DecidableEq T] in
theorem beginRound_inv (hinv : Inv capacity w) (huser : userCode w = true) :
    Inv capacity (beginRound w) := by
  have hat := hinv.attached
  refine ⟨hat.sublist (List.Sublist.refl _) rfl rfl, ?_, ?_, ?_,
    fun p hp => (hinv.returned p hp).later le_rfl⟩
  · refine List.forall_mem_cons.mpr ⟨?_, hinv.turned⟩
    exact ⟨hat.bounded, hat.order, hat.made, rfl, Nat.zero_le _, (taken_nil _).symm, nofun, rfl, rfl⟩
  · refine List.forall_mem_cons.mpr ⟨⟨le_rfl, ?_⟩, ?_⟩
    · intro e he a ha hsame
      by_contra hne
      have hnumber : Std.Symm fun a b : Entry T F => a.attachment ≠ b.attachment := ⟨fun _ _ h => h.symm⟩
      rcases hsame with hn | hs
      · exact hat.numbers.forall ha he hne hn
      · have hserial : w.tasks.Pairwise fun a b => a.serial ≠ b.serial :=
          hat.order.imp fun h => Nat.ne_of_lt h
        have hsymm : Std.Symm fun a b : Entry T F => a.serial ≠ b.serial := ⟨fun _ _ h => h.symm⟩
        exact hserial.forall ha he hne hs
    · intro r hr
      exact ⟨(hinv.remembered r hr).since, (hinv.remembered r hr).same⟩
  · intro r hr
    have hr : r ∈ w.rounds := hr
    cases hrounds : w.rounds with
    | nil => simp [hrounds] at hr
    | cons q outer =>
      rw [hrounds] at hr
      rcases List.mem_cons.mp hr with rfl | hr
      · simpa [userCode, hrounds] using huser
      · exact hinv.waiting r (by rw [hrounds]; exact hr)

omit [DecidableEq T] in
/-- The loop of a round: the entry is polled exactly if its attachment is attached. -/
theorem advance_inv (hinv : Inv capacity w) (hrounds : w.rounds = r :: outer)
    (hloop : r.polling = false) : Inv capacity (advance w r outer) := by
  have hmem : r ∈ w.rounds := by simp [hrounds]
  have ht := hinv.turned r hmem
  have hr := hinv.remembered r hmem
  have hat := hinv.attached
  have hturns := ht.turns
  have hwithin := ht.within
  have hanswered := ht.answered
  rw [hloop, Bool.toNat_false, Nat.add_zero] at hturns hwithin hanswered
  unfold advance
  cases hget : r.snapshot[r.index]? with
  | none =>
    have hend : r.live.length = r.snapshot.length := by
      have hlen := List.getElem?_eq_none_iff.mp hget
      omega
    have htail : ∀ q ∈ outer, q ∈ w.rounds := by
      intro q hq
      rw [hrounds]
      exact List.mem_cons_of_mem r hq
    refine ⟨hat.sublist (List.Sublist.refl _) rfl rfl, fun q hq => hinv.turned q (htail q hq), ?_, ?_, ?_⟩
    · intro q hq
      exact ⟨(hinv.remembered q (htail q hq)).since, (hinv.remembered q (htail q hq)).same⟩
    · intro q hq
      refine hinv.waiting q ?_
      rw [hrounds]
      exact List.mem_of_mem_tail hq
    · exact List.forall_mem_cons.mpr ⟨⟨ht, hr.since, hend, hloop, ht.value⟩,
        fun p hp => (hinv.returned p hp).later le_rfl⟩
  | some e =>
    have he : e ∈ r.snapshot := List.mem_of_getElem? hget
    have hlt : r.index < r.snapshot.length := (List.getElem?_eq_some_iff.mp hget).1
    have hturn : r.snapshot[r.live.length]? = some e := by rw [hturns, hget]
    have hlive : (w.tasks.any fun a => a.serial == e.serial) = holds w e.attachment := by
      rw [Bool.eq_iff_iff, hr.serial_iff_mem he, hr.holds_iff_mem he]
    simp only [hlive]
    split
    · rename_i hholds
      refine hinv.innermost hrounds (hat.sublist (List.Sublist.refl _) rfl rfl)
        (Later.of_sublist (List.Sublist.refl _) rfl) rfl rfl ?_ rfl rfl
      refine ⟨ht.bounded, ht.order, ht.before, ?_, ?_, ?_, ?_, ?_, ht.value⟩
      · simp [hturns]
      · exact hlt
      · simp [taken_snoc hturn, hholds, ht.polled]
      · intro _
        exact ⟨e, hget, by simp⟩
      · simp [hanswered]
    · rename_i hholds
      refine hinv.innermost hrounds (hat.sublist (List.Sublist.refl _) rfl rfl)
        (Later.of_sublist (List.Sublist.refl _) rfl) rfl rfl ?_ rfl rfl
      refine ⟨ht.bounded, ht.order, ht.before, ?_, ?_, ?_, by simp [hloop], ?_, ht.value⟩
      · simp [hturns, hloop]
      · rw [hloop, Bool.toNat_false, Nat.add_zero]
        exact hlt
      · simp [taken_snoc hturn, hholds, ht.polled]
      · simp [hanswered, hloop]

omit [DecidableEq T] in
/-- The attachment that is removed is the one that was polled. -/
theorem remove_eq_filter (hinv : Inv capacity w) (hr : Remembered w r) (he : e ∈ r.snapshot) :
    (remove w e.attachment).tasks = w.tasks.filter fun a => a.serial != e.serial := by
  rw [remove, eraseP_eq_filter Entry.attachment e.attachment hinv.attached.numbers]
  refine List.filter_congr ?_
  intro a ha
  have hiff : a.attachment = e.attachment ↔ a.serial = e.serial := by
    constructor
    · intro h
      rw [hr.same e he a ha (Or.inl h)]
    · intro h
      rw [hr.same e he a ha (Or.inr h)]
  rw [Bool.eq_iff_iff]
  simp [hiff]

omit [DecidableEq T] in
theorem pollReturned_inv (hinv : Inv capacity w) (hrounds : w.rounds = r :: outer)
    (hpoll : r.polling = true) (e : Entry T F) (more : Bool) :
    Inv capacity (pollReturned w r outer e more) := by
  have hmem : r ∈ w.rounds := by simp [hrounds]
  have ht := hinv.turned r hmem
  have hat := hinv.attached
  have hturns := ht.turns
  have hwithin := ht.within
  have hanswered := ht.answered
  have hvalue := ht.value
  rw [hpoll, Bool.toNat_true] at hturns hwithin hanswered
  unfold pollReturned
  cases more with
  | true =>
    refine hinv.innermost hrounds (hat.sublist (List.Sublist.refl _) rfl rfl)
      (Later.of_sublist (List.Sublist.refl _) rfl) rfl rfl ?_ rfl rfl
    refine ⟨ht.bounded, ht.order, ht.before, ?_, ?_, ht.polled, nofun, ?_, ?_⟩
    · simpa using hturns
    · simpa using hwithin
    · simpa using hanswered
    · simp [hvalue]
  | false =>
    have hsub : (remove w e.attachment).tasks.Sublist w.tasks := List.eraseP_sublist
    refine hinv.innermost hrounds (hat.sublist hsub rfl rfl) (Later.of_sublist hsub rfl) rfl rfl ?_
      rfl rfl
    refine ⟨ht.bounded, ht.order, ht.before, ?_, ?_, ht.polled, nofun, ?_, ?_⟩
    · simpa using hturns
    · simpa using hwithin
    · simpa using hanswered
    · simp [hvalue]

/-- STEP: every action keeps the invariant. -/
theorem step_inv {a : Act T F} (hinv : Inv capacity w) (hstep : step capacity w a = some w') :
    Inv capacity w' := by
  cases a with
  | attach task fn =>
    simp only [step] at hstep
    split at hstep
    · obtain ⟨out, htry, rfl⟩ := Option.map_eq_some_iff.mp hstep
      cases hattached : isAttached w task with
      | true => simp [tryAttachImpl, hattached] at htry
      | false =>
        cases fn with
        | none => simp [tryAttachImpl] at htry
        | some poll =>
          obtain ⟨out', htry', hcases⟩ := tryAttachImpl_cases hinv.attached.next hattached poll
          rw [htry'] at htry
          cases htry
          refine hinv.user (hinv.attached.attach hattached hcases) (Later.of_attach hcases) ?_ ?_
          · cases hcases <;> rfl
          · cases hcases <;> rfl
    · cases hstep
  | detach task =>
    simp only [step] at hstep
    split at hstep
    · cases hstep
      have hsub : (detach w task).1.tasks.Sublist w.tasks := List.eraseP_sublist
      exact hinv.user (hinv.attached.sublist hsub rfl rfl) (Later.of_sublist hsub rfl) rfl rfl
    · cases hstep
  | runOnce =>
    simp only [step] at hstep
    split at hstep
    · rename_i huser
      cases hstep
      exact beginRound_inv hinv huser
    · cases hstep
  | advance =>
    cases hrounds : w.rounds with
    | nil => simp [step, hrounds] at hstep
    | cons r outer =>
      simp only [step, hrounds] at hstep
      split at hstep
      · cases hstep
      · rename_i hloop
        cases hstep
        exact advance_inv hinv hrounds (by simpa using hloop)
  | ret more =>
    cases hrounds : w.rounds with
    | nil => simp [step, hrounds] at hstep
    | cons r outer =>
      simp only [step, hrounds] at hstep
      split at hstep
      · rename_i hpoll
        obtain ⟨e, hget, rfl⟩ := Option.map_eq_some_iff.mp hstep
        exact pollReturned_inv hinv hrounds hpoll e more
      · cases hstep

omit [DecidableEq T] in
theorem inv_init : Inv capacity (init : World T F) where
  attached := by
    refine ⟨Nat.zero_le _, List.Pairwise.nil, List.Pairwise.nil, List.Pairwise.nil, ?_, ?_, ?_⟩
    · simp [init]
    · simp [init]
    · exact Nat.succ_pos _
  turned := by simp [init]
  remembered := by simp [init]
  waiting := by simp [init]
  returned := by simp [init]

/-- RUN: the invariant holds in every state that the scheduler reaches. -/
theorem run_reaches_inv {acts : List (Act T F)} (hrun : run (step capacity) init acts = some w) :
    Inv capacity w :=
  run_inv (fun _ _ _ => step_inv) acts init w inv_init hrun

/-! ### The contract -/

/-- What holds in a state of the scheduler. -/
structure Contract (capacity : ℕ) (w : World T F) : Prop where
  /-- A number stands for one attachment among the attached and the remembered ones. -/
  numbers : w.tasks.Pairwise fun a b => a.attachment ≠ b.attachment
  remembered : ∀ r ∈ w.rounds, ∀ e ∈ r.snapshot, ∀ a ∈ w.tasks,
    a.attachment = e.attachment → a = e
  running : ∀ r ∈ w.rounds, Turned capacity r ∧ r.began ≤ w.serials
  returned : ∀ p ∈ w.returned, Over capacity w p
  /-- A round polls an attachment at most once, in the order of attaching, and none made since it
      began. -/
  once : ∀ r, r ∈ w.rounds ∨ (∃ value, (r, value) ∈ w.returned) →
    r.polled.Pairwise (fun a b => a.serial < b.serial) ∧ ∀ e ∈ r.polled, e.serial < r.began
  /-- A round remembers what is attached when it begins. -/
  begins : userCode w = true → ∃ w' r, step capacity w .runOnce = some w' ∧
    w'.tasks = w.tasks ∧ w'.rounds = r :: w.rounds ∧ r.snapshot = w.tasks ∧
    r.began = w.serials ∧ r.live = []
  /-- At its turn an entry is polled if its attachment is attached, and passed by if not; after the
      last turn the round returns. -/
  turn : ∀ r outer, w.rounds = r :: outer → r.polling = false →
    ∃ w', step capacity w .advance = some w' ∧ w'.tasks = w.tasks ∧
      (r.index = r.snapshot.length ∧ w'.rounds = outer ∧
          w'.returned = (r, r.stillRunning) :: w.returned ∨
        ∃ e r', r.snapshot[r.index]? = some e ∧ w'.rounds = r' :: outer ∧
          r'.snapshot = r.snapshot ∧ r'.began = r.began ∧ r'.live = r.live ++ [r'.polling] ∧
          (r'.polling = true ↔ e ∈ w.tasks))
  /-- A poll returns; false removes the attachment that was polled, and no other. -/
  answer : ∀ r outer, w.rounds = r :: outer → r.polling = true →
    ∃ e, r.polled.getLast? = some e ∧ ∀ more, ∃ w' r',
      step capacity w (.ret more) = some w' ∧ w'.rounds = r' :: outer ∧
        r'.snapshot = r.snapshot ∧ r'.began = r.began ∧ r'.live = r.live ∧
        r'.polled = r.polled ∧ r'.polling = false ∧ r'.answers = r.answers ++ [more] ∧
        w'.tasks = if more then w.tasks else w.tasks.filter fun a => a.serial != e.serial
  /-- Detaching removes the attachment of that task. -/
  detaches : ∀ task, (detach w task).1.tasks = w.tasks.filter fun a => a.task != task
  /-- Attaching adds a new attachment at the end, or reports false; with at most one round running,
      it reports false only when the scheduler is full. -/
  attaches : ∀ task poll, isAttached w task = false →
    ∃ out, tryAttachImpl capacity w task (some poll) = some out ∧
      (out.2 = false ∧ out.1.tasks = w.tasks ∧ out.1.serials = w.serials ∨
        out.2 = true ∧ out.1.serials = w.serials + 1 ∧
          ∃ n, out.1.tasks = w.tasks ++ [⟨task, poll, n, w.serials⟩]) ∧
      (w.rounds.length ≤ 1 → (out.2 = false ↔ w.tasks.length = capacity))

omit [DecidableEq T] in
/-- With at most one round running, some number is free. -/
theorem number_free (hinv : Inv capacity w) (hone : w.rounds.length ≤ 1) :
    ∃ n < attachmentNumbers capacity, inUse w n = false := by
  by_contra hnone
  have hall : ∀ n < attachmentNumbers capacity, inUse w n = true := by
    intro n hn
    by_contra hfree
    exact hnone ⟨n, hn, by simpa using hfree⟩
  have hle := numbers_le hall
  have hbound := hinv.attached.bounded
  have hsnapshots : (w.rounds.flatMap Round.snapshot).length ≤ capacity := by
    cases hrounds : w.rounds with
    | nil => simp
    | cons r outer =>
      rw [hrounds, List.length_cons] at hone
      have houter : outer = [] := List.eq_nil_of_length_eq_zero (by omega)
      have hr := hinv.turned r (by simp [hrounds])
      simpa [houter] using hr.bounded
  unfold attachmentNumbers at hle
  omega

/-- What the invariant says of every state. -/
theorem Inv.contract (hinv : Inv capacity w) : Contract capacity w where
  numbers := hinv.attached.numbers
  remembered := fun r hr e he a ha h => (hinv.remembered r hr).same e he a ha (Or.inl h)
  running := fun r hr => ⟨hinv.turned r hr, (hinv.remembered r hr).since⟩
  returned := hinv.returned
  once := by
    rintro r (hr | ⟨value, hr⟩)
    · exact (hinv.turned r hr).once
    · exact (hinv.returned _ hr).turned.once
  begins := fun huser => ⟨beginRound w, _, by simp [step, huser], rfl, rfl, rfl, rfl, rfl⟩
  turn := by
    intro r outer hrounds hloop
    have hmem : r ∈ w.rounds := by simp [hrounds]
    have hr := hinv.remembered r hmem
    refine ⟨advance w r outer, by simp [step, hrounds, hloop], ?_⟩
    unfold advance
    cases hget : r.snapshot[r.index]? with
    | none =>
      have hlen := List.getElem?_eq_none_iff.mp hget
      have hwithin := (hinv.turned r hmem).within
      exact ⟨rfl, Or.inl ⟨by omega, rfl, rfl⟩⟩
    | some e =>
      have he : e ∈ r.snapshot := List.mem_of_getElem? hget
      have hlive := hr.serial_iff_mem he
      have hholds := hr.holds_iff_mem he
      by_cases hattached : e ∈ w.tasks
      · simp only [hholds.mpr hattached, hlive.mpr hattached, if_true]
        exact ⟨trivial, Or.inr ⟨e, _, rfl, rfl, rfl, rfl, rfl, by simpa using hattached⟩⟩
      · have hlive' := Bool.eq_false_of_not_eq_true (mt hlive.mp hattached)
        have hholds' := Bool.eq_false_of_not_eq_true (mt hholds.mp hattached)
        simp only [hholds', hlive', Bool.false_eq_true, if_false]
        exact ⟨trivial, Or.inr ⟨e, _, rfl, rfl, rfl, rfl, by simp [hloop],
          by simpa [hloop] using hattached⟩⟩
  answer := by
    intro r outer hrounds hpoll
    have hmem : r ∈ w.rounds := by simp [hrounds]
    obtain ⟨e, hget, hlast⟩ := (hinv.turned r hmem).current hpoll
    have hfilter := remove_eq_filter hinv (hinv.remembered r hmem) (List.mem_of_getElem? hget)
    refine ⟨e, hlast, ?_⟩
    intro more
    have hstep : step capacity w (.ret more) = some (pollReturned w r outer e more) := by
      simp [step, hrounds, hpoll, hget]
    cases more with
    | true => exact ⟨_, _, hstep, rfl, rfl, rfl, rfl, rfl, rfl, rfl, rfl⟩
    | false => exact ⟨_, _, hstep, rfl, rfl, rfl, rfl, rfl, rfl, rfl, hfilter⟩
  detaches := fun task => eraseP_eq_filter Entry.task task hinv.attached.addresses
  attaches := by
    intro task poll hfresh
    obtain ⟨out, htry, hcases⟩ := tryAttachImpl_cases hinv.attached.next hfresh poll
    refine ⟨out, htry, ?_⟩
    cases hcases with
    | full hfull => exact ⟨Or.inl ⟨rfl, rfl, rfl⟩, fun _ => ⟨fun _ => hfull, fun _ => rfl⟩⟩
    | exhausted hnext hall =>
      refine ⟨Or.inl ⟨rfl, rfl, rfl⟩, fun hone => ⟨fun _ => ?_, fun _ => rfl⟩⟩
      exfalso
      obtain ⟨n, hn, hfree⟩ := number_free hinv hone
      rw [hall n hn] at hfree
      cases hfree
    | attached hnext hroom hn hfree =>
      refine ⟨Or.inr ⟨rfl, rfl, _, rfl⟩, fun _ => ⟨nofun, fun hfull => absurd hfull hroom⟩⟩

/-- CORRECT: whatever the polls do, every round polls the attachments it found that are still
    attached at their turn, once and in order, and a completed poll removes its own attachment. -/
theorem round_contract (capacity : ℕ) (acts : List (Act T F)) (w : World T F)
    (hrun : run (step capacity) init acts = some w) : Contract capacity w :=
  (run_reaches_inv hrun).contract

/-- Task 1 detaches task 2 and itself, comes back at the same address with the same poll function,
    and runs a round of its own, which polls the new attachment. -/
def sampleActs : List (Act ℕ ℕ) :=
  [.attach 1 (some 0), .attach 2 (some 0), .runOnce, .advance, .detach 2, .detach 1,
    .attach 1 (some 0), .runOnce, .advance, .ret true, .advance, .ret false, .advance, .advance]

theorem round_contract_sample : ∃ w, run (step 2) init sampleActs = some w ∧
    w.tasks = [⟨1, 0, 2, 2⟩] ∧ w.returned.map Prod.snd = [0, 1] ∧ Contract 2 w := by
  have houtcome : (run (step 2) init sampleActs).map (fun w => (w.tasks, w.returned.map Prod.snd)) =
      some ([⟨1, 0, 2, 2⟩], [0, 1]) := by
    decide +kernel
  obtain ⟨w, hrun, hw⟩ := Option.map_eq_some_iff.mp houtcome
  obtain ⟨htasks, hreturned⟩ := Prod.mk.inj hw
  exact ⟨w, hrun, htasks, hreturned, round_contract 2 sampleActs w hrun⟩

end Metl.Scheduler
