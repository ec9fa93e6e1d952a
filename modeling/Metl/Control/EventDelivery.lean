import Metl.Control.EventDispatcher
import Metl.Schemes.Run
import Metl.Schemes.Turns

/-! Who hears an event, for all behaviours of the listeners.

    A dispatch tells old subscriptions from new ones by comparing ids with the next id when it began.
    The invariant carries that comparison over to the order in which the subscriptions were made,
    which does not wrap; the two agree as long as the counter of ids has not. -/

namespace Metl.EventDispatcher
open Metl.Schemes Function

variable {L : Type} {capacity : ℕ} {w w' : World L} {d : Dispatch L}

/-! ### Ids -/

/-- How many ids there are before the counter comes back to 1. -/
def ids : ℕ := 2 ^ 64 - 1

/-- The id of a subscription, by how many were made before. -/
def idOf (serial : ℕ) : ℕ := serial % ids + 1

theorem idOf_pos (serial : ℕ) : idOf serial ≠ 0 := Nat.succ_ne_zero _

theorem idOf_succ (serial : ℕ) : bump (idOf serial) = idOf (serial + 1) := by
  unfold bump idOf ids
  split <;> omega

variable {serial i : ℕ} {listener : Option L} {outer : List (Dispatch L)}

theorem idOf_of_lt (h : serial < ids) : idOf serial = serial + 1 := by
  rw [idOf, Nat.mod_eq_of_lt h]

/-! ### The invariant -/

/-- The slots in use. -/
structure Slots (capacity : ℕ) (w : World L) : Prop where
  next : w.nextId = idOf w.given.length
  given : w.given = (List.range w.given.length).map idOf
  named : ∀ i < capacity, (w.slots i).id ≠ 0 →
    (w.slots i).id = idOf (w.slots i).serial ∧ (w.slots i).serial < w.given.length
  distinct : ∀ i < capacity, ∀ j < capacity, (w.slots i).id ≠ 0 → (w.slots j).id ≠ 0 →
    (w.slots i).serial = (w.slots j).serial → i = j

/-- How far a dispatch has come. -/
structure Turned (capacity : ℕ) (d : Dispatch L) : Prop where
  slots : d.present.length = capacity
  turns : d.live.length = d.index + d.calling.toNat
  within : d.index + d.calling.toNat ≤ capacity

/-- What a dispatch found when it began, and that a slot in use holds it still or is newer. -/
structure Remembered (capacity : ℕ) (w : World L) (d : Dispatch L) : Prop where
  since : d.began ≤ w.given.length
  threshold : d.firstUnheard = idOf d.began
  old : ∀ (i : ℕ) (s : Slot L), d.present[i]? = some (some s) → s.serial < d.began
  distinct : ∀ (i j : ℕ) (s t : Slot L), d.present[i]? = some (some s) →
    d.present[j]? = some (some t) → s.serial = t.serial → i = j
  kept : ∀ i < capacity, (w.slots i).id ≠ 0 → (w.slots i).serial < d.began →
    d.present[i]? = some (some (w.slots i))

/-- The event went to what was there when the dispatch began and when its slot was reached. -/
def Heard (d : Dispatch L) : Prop := d.called.map some = taken d.present d.live

/-- A dispatch that has returned has reached every slot. -/
structure Over (capacity : ℕ) (w : World L) (d : Dispatch L) : Prop where
  turned : Turned capacity d
  since : d.began ≤ w.given.length
  old : ∀ (i : ℕ) (s : Slot L), d.present[i]? = some (some s) → s.serial < d.began
  complete : d.live.length = capacity

structure Inv (capacity : ℕ) (w : World L) : Prop where
  slots : Slots capacity w
  turned : ∀ d ∈ w.dispatches, Turned capacity d
  remembered : ∀ d ∈ w.dispatches, Remembered capacity w d
  /-- A dispatch that is not the innermost one waits for a listener. -/
  waiting : ∀ d ∈ w.dispatches.tail, d.calling = true
  returned : ∀ d ∈ w.returned, Over capacity w d
  heard : w.given.length ≤ ids → ∀ d, d ∈ w.dispatches ∨ d ∈ w.returned → d.began < ids → Heard d

/-! ### Slots -/

theorem active_iff : active capacity w serial = true ↔
    ∃ i < capacity, (w.slots i).id ≠ 0 ∧ (w.slots i).serial = serial := by
  simp [active]

/-- `w'` comes after `w`: a slot in use is as it was, or holds a newer subscription. -/
structure Later (capacity : ℕ) (w w' : World L) : Prop where
  given : w.given.length ≤ w'.given.length
  slots : ∀ i < capacity, (w'.slots i).id ≠ 0 →
    w'.slots i = w.slots i ∨ w.given.length ≤ (w'.slots i).serial

theorem Remembered.later (hd : Remembered capacity w d) (hlater : Later capacity w w') :
    Remembered capacity w' d := by
  refine ⟨hd.since.trans hlater.given, hd.threshold, hd.old, hd.distinct, ?_⟩
  intro i hi hid hserial
  rcases hlater.slots i hi hid with hsame | hnew
  · rw [hsame] at hid hserial ⊢
    exact hd.kept i hi hid hserial
  · have hsince := hd.since
    omega

theorem Over.later (hd : Over capacity w d) (hlater : w.given.length ≤ w'.given.length) :
    Over capacity w' d :=
  ⟨hd.turned, hd.since.trans hlater, hd.old, hd.complete⟩

/-- Slots are emptied. -/
theorem Slots.emptied (hs : Slots capacity w) (hnext : w'.nextId = w.nextId) (hgiven : w'.given = w.given)
    (hslots : ∀ i < capacity, (w'.slots i).id ≠ 0 → w'.slots i = w.slots i) : Slots capacity w' := by
  refine ⟨by rw [hnext, hgiven, hs.next], by rw [hgiven]; exact hs.given, ?_, ?_⟩
  · intro i hi hid
    have hsame := hslots i hi hid
    rw [hsame] at hid ⊢
    rw [hgiven]
    exact hs.named i hi hid
  · intro i hi j hj hid hjd
    have hsame := hslots i hi hid
    have hsame' := hslots j hj hjd
    rw [hsame] at hid ⊢
    rw [hsame'] at hjd ⊢
    exact hs.distinct i hi j hj hid hjd

/-! ### Subscribing and unsubscribing -/

/-- What `try_subscribe` can do. -/
inductive SubscribeCases (capacity : ℕ) (w : World L) (listener : Option L) :
    World L × Option ℕ → Prop
  | refused (hwhy : listener = none ∨ ∀ i < capacity, (w.slots i).id ≠ 0) :
      SubscribeCases capacity w listener (w, none)
  | subscribed {i : ℕ} (hlistener : listener ≠ none) (hi : i < capacity)
      (hfree : (w.slots i).id = 0) :
      SubscribeCases capacity w listener
        ({ w with
            slots := update w.slots i ⟨w.nextId, listener, w.given.length⟩
            nextId := bump w.nextId
            given := w.given ++ [w.nextId] }, some w.nextId)

theorem trySubscribe_cases (capacity : ℕ) (w : World L) (listener : Option L) :
    SubscribeCases capacity w listener (trySubscribe capacity w listener) := by
  unfold trySubscribe
  cases listener with
  | none => exact SubscribeCases.refused (Or.inl rfl)
  | some l =>
    simp only [Option.isNone_some, Bool.false_eq_true, if_false]
    cases hfind : (List.range capacity).find? fun i => (w.slots i).id == 0 with
    | none =>
      refine SubscribeCases.refused (Or.inr ?_)
      simpa using hfind
    | some i =>
      have hfree := List.find?_some hfind
      have hmem := List.mem_of_find?_eq_some hfind
      exact SubscribeCases.subscribed (by simp) (List.mem_range.mp hmem) (by simpa using hfree)

/-- A new subscription takes the next id. -/
theorem Slots.subscribed (hs : Slots capacity w) (hi : i < capacity) : Slots capacity
      { w with
        slots := update w.slots i ⟨w.nextId, listener, w.given.length⟩
        nextId := bump w.nextId
        given := w.given ++ [w.nextId] } := by
  have hlen : (w.given ++ [w.nextId]).length = w.given.length + 1 := by simp
  refine ⟨?_, ?_, ?_, ?_⟩
  · rw [hlen, hs.next, idOf_succ]
  · rw [hlen, List.range_succ, List.map_append, ← hs.given, hs.next]
    rfl
  · intro j hj
    rw [hlen]
    rcases eq_or_ne j i with rfl | hji
    · simp [hs.next]
    · simp only [update_of_ne hji]
      intro hid
      obtain ⟨hname, hlt⟩ := hs.named j hj hid
      exact ⟨hname, by omega⟩
  · intro j hj k hk
    by_cases hji : j = i
    · by_cases hki : k = i
      · intro _ _ _
        rw [hji, hki]
      · subst hji
        simp only [update_self, update_of_ne hki]
        intro _ hkd heq
        have hlt := (hs.named k hk hkd).2
        omega
    · rcases eq_or_ne k i with rfl | hki
      · simp only [update_self, update_of_ne hji]
        intro hjd _ heq
        have hlt := (hs.named j hj hjd).2
        omega
      · simp only [update_of_ne hji, update_of_ne hki]
        exact hs.distinct j hj k hk

theorem later_subscribed : Later capacity w
      { w with
        slots := update w.slots i ⟨w.nextId, listener, w.given.length⟩
        nextId := bump w.nextId
        given := w.given ++ [w.nextId] } := by
  refine ⟨by simp, ?_⟩
  intro j _
  rcases eq_or_ne j i with rfl | hji
  · simp
  · simp [hji]

/-- What `unsubscribe` can do. -/
inductive UnsubscribeCases (capacity : ℕ) (w : World L) (id : ℕ) : World L × Bool → Prop
  | unknown (hnone : ∀ i < capacity, (w.slots i).id ≠ 0 → (w.slots i).id ≠ id) :
      UnsubscribeCases capacity w id (w, false)
  | removed {i : ℕ} (hi : i < capacity) (hid : (w.slots i).id = id) (hpos : id ≠ 0) :
      UnsubscribeCases capacity w id
        ({ w with slots := update w.slots i ⟨0, none, (w.slots i).serial⟩ }, true)

theorem unsubscribe_cases (capacity : ℕ) (w : World L) (id : ℕ) :
    UnsubscribeCases capacity w id (unsubscribe capacity w id) := by
  unfold unsubscribe
  by_cases hzero : id = 0
  · rw [if_pos hzero]
    refine UnsubscribeCases.unknown ?_
    rintro i - hid
    rwa [hzero]
  · rw [if_neg hzero]
    cases hfind : (List.range capacity).find? fun i => (w.slots i).id == id with
    | none =>
      refine UnsubscribeCases.unknown ?_
      rintro i hi -
      have hnone : ∀ i < capacity, ¬(w.slots i).id = id := by simpa using hfind
      exact hnone i hi
    | some i =>
      have hid := List.find?_some hfind
      have hmem := List.mem_of_find?_eq_some hfind
      exact UnsubscribeCases.removed (List.mem_range.mp hmem) (by simpa using hid) hzero

/-- Taking subscriptions out leaves the other slots alone. -/
theorem unsubscribe_slots (capacity : ℕ) (w : World L) (id i : ℕ)
    (hid : ((unsubscribe capacity w id).1.slots i).id ≠ 0) :
    (unsubscribe capacity w id).1.slots i = w.slots i := by
  have hcases := unsubscribe_cases capacity w id
  revert hid
  generalize unsubscribe capacity w id = out at hcases
  intro hid
  cases hcases with
  | unknown hnone => rfl
  | @removed j hj hjd hpos =>
    rcases eq_or_ne i j with rfl | hij
    · simp at hid
    · simp [hij]

theorem clear_slots (w : World L) (hi : i < capacity) (hid : ((clear capacity w).slots i).id ≠ 0) :
    (clear capacity w).slots i = w.slots i := by
  simp [clear, hi] at hid

/-! ### Every step -/

/-- User code changes the slots only. -/
theorem Inv.user (hinv : Inv capacity w) (hslots : Slots capacity w') (hlater : Later capacity w w')
    (hdispatches : w'.dispatches = w.dispatches) (hreturned : w'.returned = w.returned) :
    Inv capacity w' where
  slots := hslots
  turned := by
    rw [hdispatches]
    exact hinv.turned
  remembered := by
    rw [hdispatches]
    exact fun d hd => (hinv.remembered d hd).later hlater
  waiting := by
    rw [hdispatches]
    exact hinv.waiting
  returned := by
    rw [hreturned]
    exact fun d hd => (hinv.returned d hd).later hlater.given
  heard := by
    rw [hdispatches, hreturned]
    exact fun hids => hinv.heard (hlater.given.trans hids)

/-- The innermost dispatch moves on. -/
theorem Inv.innermost (hinv : Inv capacity w) {d' : Dispatch L}
    (hdispatches : w.dispatches = d :: outer) (hturned : Turned capacity d')
    (hpresent : d'.present = d.present) (hbegan : d'.began = d.began)
    (hunheard : d'.firstUnheard = d.firstUnheard)
    (hheard : w.given.length ≤ ids → d.began < ids → Heard d → Heard d') :
    Inv capacity { w with dispatches := d' :: outer } := by
  have hmem : d ∈ w.dispatches := by simp [hdispatches]
  have hsubset : ∀ q ∈ outer, q ∈ w.dispatches := by
    intro q hq
    rw [hdispatches]
    exact List.mem_cons_of_mem d hq
  have hd := hinv.remembered d hmem
  have hs := hinv.slots
  refine ⟨⟨hs.next, hs.given, hs.named, hs.distinct⟩, ?_, ?_, ?_, ?_, ?_⟩
  · exact List.forall_mem_cons.mpr ⟨hturned, fun q hq => hinv.turned q (hsubset q hq)⟩
  · refine List.forall_mem_cons.mpr ⟨?_, ?_⟩
    · refine ⟨?_, ?_, ?_, ?_, ?_⟩
      · rw [hbegan]
        exact hd.since
      · rw [hbegan, hunheard]
        exact hd.threshold
      · rw [hbegan, hpresent]
        exact hd.old
      · rw [hpresent]
        exact hd.distinct
      · rw [hbegan, hpresent]
        exact hd.kept
    · exact fun q hq => (hinv.remembered q (hsubset q hq)).later ⟨le_rfl, fun _ _ _ => Or.inl rfl⟩
  · have hwaiting := hinv.waiting
    rw [hdispatches] at hwaiting
    exact hwaiting
  · exact fun q hq => (hinv.returned q hq).later le_rfl
  · rintro hids q (hq | hq) hbefore
    · rcases List.mem_cons.mp hq with rfl | hq
      · rw [hbegan] at hbefore
        exact hheard hids hbefore (hinv.heard hids d (Or.inl hmem) hbefore)
      · exact hinv.heard hids q (Or.inl (hsubset q hq)) hbefore
    · exact hinv.heard hids q (Or.inr hq) hbefore

theorem present_get {s : Slot L} (h : ((List.range capacity).map (held w))[i]? = some (some s)) :
    i < capacity ∧ (w.slots i).id ≠ 0 ∧ w.slots i = s := by
  simp only [List.getElem?_map, Option.map_eq_some_iff, held] at h
  obtain ⟨j, hj, hs⟩ := h
  obtain ⟨hlt, rfl⟩ := List.getElem?_eq_some_iff.mp hj
  simp only [List.getElem_range] at hs
  split at hs
  · cases hs
  · rename_i hid
    exact ⟨by simpa using hlt, hid, Option.some.inj hs⟩

theorem beginDispatch_inv (hinv : Inv capacity w) (huser : userCode w = true) :
    Inv capacity (beginDispatch capacity w) := by
  have hs := hinv.slots
  refine ⟨⟨hs.next, hs.given, hs.named, hs.distinct⟩, ?_, ?_, ?_, ?_, ?_⟩
  · refine List.forall_mem_cons.mpr ⟨⟨by simp, rfl, Nat.zero_le _⟩, hinv.turned⟩
  · refine List.forall_mem_cons.mpr ⟨⟨le_rfl, hs.next, ?_, ?_, ?_⟩, ?_⟩
    · intro i s hget
      obtain ⟨hi, hid, rfl⟩ := present_get hget
      exact (hs.named i hi hid).2
    · intro i j s t hget hget' heq
      obtain ⟨hi, hid, rfl⟩ := present_get hget
      obtain ⟨hj, hjd, rfl⟩ := present_get hget'
      exact hs.distinct i hi j hj hid hjd heq
    · intro i hi hid _
      have hid' : ¬(w.slots i).id = 0 := hid
      simp [List.getElem?_map, List.getElem?_range hi, held, hid', beginDispatch]
    · exact fun d hd => (hinv.remembered d hd).later ⟨le_rfl, fun _ _ _ => Or.inl rfl⟩
  · intro d hd
    have hd : d ∈ w.dispatches := hd
    cases hdispatches : w.dispatches with
    | nil => simp [hdispatches] at hd
    | cons q outer =>
      rw [hdispatches] at hd
      rcases List.mem_cons.mp hd with rfl | hd
      · simpa [userCode, hdispatches] using huser
      · exact hinv.waiting d (by rw [hdispatches]; exact hd)
  · exact fun d hd => (hinv.returned d hd).later le_rfl
  · rintro hids d (hd | hd) hbefore
    · rcases List.mem_cons.mp hd with rfl | hd
      · simp [Heard]
      · exact hinv.heard hids d (Or.inl hd) hbefore
    · exact hinv.heard hids d (Or.inr hd) hbefore

/-- The comparison of ids tells the subscriptions that were there from the newer ones. -/
theorem Remembered.stillThere_iff (hd : Remembered capacity w d) (hs : Slots capacity w)
    (hids : w.given.length ≤ ids) (hbefore : d.began < ids) (hi : d.index < capacity) :
    stillThere capacity w d = true ↔
      (w.slots d.index).id ≠ 0 ∧ (w.slots d.index).id < d.firstUnheard := by
  have hold : ∀ i < capacity, (w.slots i).id ≠ 0 →
      ((w.slots i).id < d.firstUnheard ↔ (w.slots i).serial < d.began) := by
    intro i hi hid
    obtain ⟨hname, hlt⟩ := hs.named i hi hid
    rw [hname, hd.threshold, idOf_of_lt (by omega), idOf_of_lt hbefore]
    omega
  unfold stillThere
  constructor
  · intro hthere
    split at hthere
    · rename_i s hget
      obtain ⟨j, hj, hjd, hserial⟩ := active_iff.mp hthere
      have hjold : (w.slots j).serial < d.began := by
        rw [hserial]
        exact hd.old _ s hget
      have hindex := hd.distinct d.index j s _ hget (hd.kept j hj hjd hjold) hserial.symm
      subst hindex
      exact ⟨hjd, (hold _ hj hjd).mpr hjold⟩
    · cases hthere
  · rintro ⟨hid, hlt⟩
    rw [hd.kept d.index hi hid ((hold _ hi hid).mp hlt)]
    exact active_iff.mpr ⟨d.index, hi, hid, rfl⟩

theorem advance_inv (hinv : Inv capacity w) (hdispatches : w.dispatches = d :: outer)
    (hloop : d.calling = false) : Inv capacity (advance capacity w d outer) := by
  have hmem : d ∈ w.dispatches := by simp [hdispatches]
  have ht := hinv.turned d hmem
  have hd := hinv.remembered d hmem
  have hs := hinv.slots
  have hturns := ht.turns
  have hwithin := ht.within
  rw [hloop, Bool.toNat_false, Nat.add_zero] at hturns hwithin
  unfold advance
  split
  · rename_i hi
    dsimp only
    split
    · rename_i hcall
      refine hinv.innermost hdispatches ⟨ht.slots, by simp [hturns], hi⟩ rfl rfl rfl ?_
      intro hids hbefore hheard
      have hthere := (hd.stillThere_iff hs hids hbefore hi).mpr hcall
      have hold : (w.slots d.index).serial < d.began := by
        obtain ⟨hname, hlt⟩ := hs.named d.index hi hcall.1
        have hless := hcall.2
        rw [hname, hd.threshold, idOf_of_lt (by omega), idOf_of_lt hbefore] at hless
        omega
      have hturn : d.present[d.live.length]? = some (some (w.slots d.index)) := by
        rw [hturns]
        exact hd.kept d.index hi hcall.1 hold
      rw [Heard, taken_snoc hturn, hthere, List.map_append, hheard]
      rfl
    · rename_i hskip
      refine hinv.innermost hdispatches ⟨ht.slots, by simp [hturns, hloop], ?_⟩ rfl rfl rfl ?_
      · rw [hloop, Bool.toNat_false, Nat.add_zero]
        exact hi
      · intro hids hbefore hheard
        have hgone : stillThere capacity w d = false := by
          simpa only [Bool.not_eq_true] using mt (hd.stillThere_iff hs hids hbefore hi).mp hskip
        have hlen : d.live.length < d.present.length := by
          rw [hturns, ht.slots]
          exact hi
        rw [Heard, taken_snoc (List.getElem?_eq_getElem hlen), hgone, hheard]
        simp
  · rename_i hi
    have htail : ∀ q ∈ outer, q ∈ w.dispatches := by
      intro q hq
      rw [hdispatches]
      exact List.mem_cons_of_mem d hq
    refine ⟨⟨hs.next, hs.given, hs.named, hs.distinct⟩, fun q hq => hinv.turned q (htail q hq),
      ?_, ?_, ?_, ?_⟩
    · exact fun q hq => (hinv.remembered q (htail q hq)).later ⟨le_rfl, fun _ _ _ => Or.inl rfl⟩
    · intro q hq
      refine hinv.waiting q ?_
      rw [hdispatches]
      exact List.mem_of_mem_tail hq
    · refine List.forall_mem_cons.mpr ⟨⟨ht, hd.since, hd.old, by omega⟩, ?_⟩
      exact fun q hq => (hinv.returned q hq).later le_rfl
    · rintro hids q (hq | hq) hbefore
      · exact hinv.heard hids q (Or.inl (htail q hq)) hbefore
      · rcases List.mem_cons.mp hq with rfl | hq
        · exact hinv.heard hids q (Or.inl hmem) hbefore
        · exact hinv.heard hids q (Or.inr hq) hbefore

/-- STEP: every action keeps the invariant. -/
theorem step_inv {a : Act L} (hinv : Inv capacity w) (hstep : step capacity w a = some w') :
    Inv capacity w' := by
  cases a with
  | subscribe listener =>
    simp only [step] at hstep
    split at hstep
    · cases hstep
      have hcases := trySubscribe_cases capacity w listener
      generalize trySubscribe capacity w listener = out at hcases
      cases hcases with
      | refused hwhy => exact hinv
      | subscribed hlistener hi hfree =>
        exact hinv.user (hinv.slots.subscribed hi) later_subscribed rfl rfl
    · cases hstep
  | unsubscribe id =>
    simp only [step] at hstep
    split at hstep
    · cases hstep
      have hslots := fun i (_ : i < capacity) => unsubscribe_slots capacity w id i
      have hcases := unsubscribe_cases capacity w id
      generalize unsubscribe capacity w id = out at hcases hslots
      have hlater : ∀ i < capacity, (out.1.slots i).id ≠ 0 →
          out.1.slots i = w.slots i ∨ w.given.length ≤ (out.1.slots i).serial :=
        fun i hi hid => Or.inl (hslots i hi hid)
      cases hcases with
      | unknown hnone => exact hinv
      | removed hi hid hpos =>
        exact hinv.user (hinv.slots.emptied rfl rfl hslots) ⟨le_rfl, hlater⟩ rfl rfl
    · cases hstep
  | clear =>
    simp only [step] at hstep
    split at hstep
    · cases hstep
      have hslots := fun i (hi : i < capacity) => clear_slots w hi
      exact hinv.user (hinv.slots.emptied rfl rfl hslots)
        ⟨le_rfl, fun i hi hid => Or.inl (hslots i hi hid)⟩ rfl rfl
    · cases hstep
  | dispatch =>
    simp only [step] at hstep
    split at hstep
    · rename_i huser
      cases hstep
      exact beginDispatch_inv hinv huser
    · cases hstep
  | advance =>
    cases hdispatches : w.dispatches with
    | nil => simp [step, hdispatches] at hstep
    | cons d outer =>
      simp only [step, hdispatches] at hstep
      split at hstep
      · cases hstep
      · rename_i hloop
        cases hstep
        exact advance_inv hinv hdispatches (by simpa using hloop)
  | ret =>
    cases hdispatches : w.dispatches with
    | nil => simp [step, hdispatches] at hstep
    | cons d outer =>
      simp only [step, hdispatches] at hstep
      split at hstep
      · rename_i hcall
        cases hstep
        have ht := hinv.turned d (by simp [hdispatches])
        have hturns := ht.turns
        have hwithin := ht.within
        rw [hcall, Bool.toNat_true] at hturns hwithin
        exact hinv.innermost hdispatches ⟨ht.slots, hturns, hwithin⟩ rfl rfl rfl fun _ _ h => h
      · cases hstep

theorem inv_init : Inv capacity (init : World L) where
  slots := ⟨rfl, rfl, by simp [init], by simp [init]⟩
  turned := by simp [init]
  remembered := by simp [init]
  waiting := by simp [init]
  returned := by simp [init]
  heard := by simp [init]

/-- RUN: the invariant holds in every state that the dispatcher reaches. -/
theorem run_reaches_inv {acts : List (Act L)} (hrun : run (step capacity) init acts = some w) :
    Inv capacity w :=
  run_inv (fun _ _ _ => step_inv) acts init w inv_init hrun

/-! ### The contract -/

/-- What holds of a dispatch, running or over. -/
structure Delivered (capacity : ℕ) (w : World L) (d : Dispatch L) : Prop where
  turned : Turned capacity d
  /-- It calls, in slot order and once each, what was there at its beginning and still is when its
      slot is reached. -/
  heard : d.called.map some = taken d.present d.live
  /-- It calls nothing that was subscribed since it began. -/
  since : d.began ≤ w.given.length
  older : ∀ s ∈ d.called, s.serial < d.began

/-- What holds in a state of the dispatcher. -/
structure Contract (capacity : ℕ) (w : World L) : Prop where
  /-- Ids of subscriptions are not 0 and differ. -/
  unique : ∀ i < capacity, ∀ j < capacity, (w.slots i).id ≠ 0 →
    (w.slots i).id = (w.slots j).id → i = j
  /-- `try_subscribe` refuses an empty delegate and a full dispatcher, and nothing else. -/
  refuses : ∀ listener, (trySubscribe capacity w listener).2 = none ↔
    listener = none ∨ ∀ i < capacity, (w.slots i).id ≠ 0
  refused : ∀ listener, (trySubscribe capacity w listener).2 = none →
    (trySubscribe capacity w listener).1 = w
  /-- A new subscription is told its id and leaves the others active. -/
  subscribes : ∀ listener id, (trySubscribe capacity w listener).2 = some id → id ≠ 0 ∧
    (trySubscribe capacity w listener).1.given = w.given ++ [id] ∧
    ∀ s, active capacity (trySubscribe capacity w listener).1 s = true ↔
      active capacity w s = true ∨ s = w.given.length
  /-- `unsubscribe` returns true if the subscription given that id is active, and removes only
      that one. -/
  unsubscribes : ∀ id, (unsubscribe capacity w id).2 = true ↔
    ∃ s, w.given[s]? = some id ∧ active capacity w s = true
  removes : ∀ id s, active capacity (unsubscribe capacity w id).1 s = true ↔
    active capacity w s = true ∧ w.given[s]? ≠ some id
  clears : ∀ s, active capacity (clear capacity w) s = false
  /-- A dispatch starts from what the slots hold. -/
  begins : userCode w = true → ∃ w' d, step capacity w .dispatch = some w' ∧
    w'.dispatches = d :: w.dispatches ∧ d.present = (List.range capacity).map (held w) ∧
    d.began = w.given.length ∧ d.live = []
  /-- A dispatch that began before the ids ran out calls a slot if the subscription it found there
      is still active. After the last slot it returns. -/
  turn : ∀ d outer, w.dispatches = d :: outer → d.calling = false →
    ∃ w', step capacity w .advance = some w' ∧
      (d.index = capacity ∧ w'.dispatches = outer ∧ w'.returned = d :: w.returned ∨
        ∃ d', w'.dispatches = d' :: outer ∧ d'.present = d.present ∧ d'.began = d.began ∧
          (d.began < ids → d'.live = d.live ++ [d'.calling] ∧
            (d'.calling = true ↔ ∃ s, d.present[d.index]? = some (some s) ∧
              active capacity w s.serial = true)))
  delivered : ∀ d, d ∈ w.dispatches ∨ d ∈ w.returned → d.began < ids → Delivered capacity w d
  complete : ∀ d ∈ w.returned, d.live.length = capacity

section Contract
variable (hinv : Inv capacity w) (hids : w.given.length ≤ ids)
include hinv hids

variable {s id i : ℕ}

omit hids in
theorem given_get : w.given[s]? = some id ↔ s < w.given.length ∧ idOf s = id := by
  rw [hinv.slots.given]
  simp only [List.getElem?_map, Option.map_eq_some_iff, List.length_map, List.length_range]
  constructor
  · rintro ⟨j, hj, rfl⟩
    obtain ⟨hlt, rfl⟩ := List.getElem?_eq_some_iff.mp hj
    simp only [List.length_range] at hlt
    exact ⟨hlt, by simp⟩
  · rintro ⟨hlt, rfl⟩
    exact ⟨s, List.getElem?_range hlt, rfl⟩

omit hinv in
/-- Among the subscriptions made, ids tell them apart. -/
theorem idOf_inj {t : ℕ} (hs : s < w.given.length) (ht : t < w.given.length) (h : idOf s = idOf t) :
    s = t := by
  rw [idOf_of_lt (by omega), idOf_of_lt (by omega)] at h
  omega

theorem slot_unique {j : ℕ} (hi : i < capacity) (hj : j < capacity) (hid : (w.slots i).id ≠ 0)
    (heq : (w.slots i).id = (w.slots j).id) : i = j := by
  have hjd : (w.slots j).id ≠ 0 := heq ▸ hid
  obtain ⟨hname, hlt⟩ := hinv.slots.named i hi hid
  obtain ⟨hname', hlt'⟩ := hinv.slots.named j hj hjd
  rw [hname, hname'] at heq
  exact hinv.slots.distinct i hi j hj hid hjd (idOf_inj hids hlt hlt' heq)

omit hids in
theorem subscribe_spec (listener : Option L) (hsome : (trySubscribe capacity w listener).2 = some id) :
    id ≠ 0 ∧ (trySubscribe capacity w listener).1.given = w.given ++ [id] ∧
      ∀ s, active capacity (trySubscribe capacity w listener).1 s = true ↔
        active capacity w s = true ∨ s = w.given.length := by
  have hcases := trySubscribe_cases capacity w listener
  revert hsome
  generalize trySubscribe capacity w listener = out at hcases
  intro hsome
  cases hcases with
  | refused hwhy => cases hsome
  | @subscribed i hlistener hi hfree =>
    cases hsome
    have hpos : w.nextId ≠ 0 := by
      rw [hinv.slots.next]
      exact idOf_pos _
    refine ⟨hpos, rfl, ?_⟩
    intro s
    simp only [active_iff]
    constructor
    · rintro ⟨j, hj, hjd, hserial⟩
      rcases eq_or_ne j i with rfl | hji
      · simp only [update_self] at hserial
        exact Or.inr hserial.symm
      · simp only [update_of_ne hji] at hjd hserial
        exact Or.inl ⟨j, hj, hjd, hserial⟩
    · rintro (⟨j, hj, hjd, hserial⟩ | rfl)
      · have hji : j ≠ i := by
          rintro rfl
          exact hjd hfree
        exact ⟨j, hj, by simpa [hji] using hjd, by simpa [hji] using hserial⟩
      · exact ⟨i, hi, by simpa using hpos, by simp⟩

omit hids in
/-- The subscription in a slot was given the id in it. -/
theorem given_slot (hi : i < capacity) (hid : (w.slots i).id ≠ 0) :
    w.given[(w.slots i).serial]? = some (w.slots i).id := by
  obtain ⟨hname, hlt⟩ := hinv.slots.named i hi hid
  exact (given_get hinv).mpr ⟨hlt, hname.symm⟩

theorem unsubscribe_spec (id : ℕ) : ((unsubscribe capacity w id).2 = true ↔
      ∃ s, w.given[s]? = some id ∧ active capacity w s = true) ∧
    ∀ s, active capacity (unsubscribe capacity w id).1 s = true ↔
      active capacity w s = true ∧ w.given[s]? ≠ some id := by
  -- an active subscription with this id is in the slot with this id
  have hslot : ∀ s, w.given[s]? = some id → active capacity w s = true →
      ∃ i < capacity, (w.slots i).id ≠ 0 ∧ (w.slots i).serial = s ∧ (w.slots i).id = id := by
    intro s hgiven hactive
    obtain ⟨i, hi, hid, rfl⟩ := active_iff.mp hactive
    rw [given_slot hinv hi hid] at hgiven
    exact ⟨i, hi, hid, rfl, Option.some.inj hgiven⟩
  have hcases := unsubscribe_cases capacity w id
  generalize unsubscribe capacity w id = out at hcases
  cases hcases with
  | unknown hnone =>
    have habsent : ∀ s, w.given[s]? = some id → ¬active capacity w s = true := by
      intro s hgiven hactive
      obtain ⟨i, hi, hid, -, heq⟩ := hslot s hgiven hactive
      exact hnone i hi hid heq
    refine ⟨⟨nofun, ?_⟩, ?_⟩
    · rintro ⟨s, hgiven, hactive⟩
      exact absurd hactive (habsent s hgiven)
    · intro s
      exact ⟨fun h => ⟨h, fun hgiven => habsent s hgiven h⟩, fun h => h.1⟩
  | @removed i hi hid hpos =>
    have hid' : (w.slots i).id ≠ 0 := hid ▸ hpos
    have hgiven : w.given[(w.slots i).serial]? = some id := by
      rw [given_slot hinv hi hid', hid]
    refine ⟨⟨fun _ => ⟨_, hgiven, active_iff.mpr ⟨i, hi, hid', rfl⟩⟩, fun _ => rfl⟩, ?_⟩
    intro s
    constructor
    · intro hactive
      obtain ⟨j, hj, hjd, hserial⟩ := active_iff.mp hactive
      rcases eq_or_ne j i with rfl | hji
      · simp at hjd
      · simp only [update_of_ne hji] at hjd hserial
        have hbefore := active_iff.mpr ⟨j, hj, hjd, hserial⟩
        refine ⟨hbefore, ?_⟩
        intro hsame
        obtain ⟨k, hk, hkd, hkserial, hkid⟩ := hslot s hsame hbefore
        have hki := slot_unique hinv hids hk hi hkd (hkid.trans hid.symm)
        have hkj := hinv.slots.distinct k hk j hj hkd hjd (hkserial.trans hserial.symm)
        exact hji (hkj.symm.trans hki)
    · rintro ⟨hactive, hother⟩
      obtain ⟨j, hj, hjd, rfl⟩ := active_iff.mp hactive
      have hji : j ≠ i := by
        rintro rfl
        exact hother hgiven
      exact active_iff.mpr ⟨j, hj, by simpa [hji] using hjd, by simp [hji]⟩

omit hinv hids in
theorem refuses_iff (listener : Option L) : ((trySubscribe capacity w listener).2 = none ↔
    listener = none ∨ ∀ i < capacity, (w.slots i).id ≠ 0) ∧
    ((trySubscribe capacity w listener).2 = none → (trySubscribe capacity w listener).1 = w) := by
  have hcases := trySubscribe_cases capacity w listener
  generalize trySubscribe capacity w listener = out at hcases
  cases hcases with
  | refused hwhy => exact ⟨⟨fun _ => hwhy, fun _ => rfl⟩, fun _ => rfl⟩
  | subscribed hlistener hi hfree =>
    refine ⟨⟨nofun, ?_⟩, nofun⟩
    rintro (hnone | hfull)
    · exact absurd hnone hlistener
    · exact absurd hfree (hfull _ hi)

end Contract

theorem delivered_of_inv (hinv : Inv capacity w) (hids : w.given.length ≤ ids)
    (hd : d ∈ w.dispatches ∨ d ∈ w.returned) (hbefore : d.began < ids) : Delivered capacity w d := by
  have hheard := hinv.heard hids d hd hbefore
  have hfacts : Turned capacity d ∧ d.began ≤ w.given.length ∧
      ∀ (i : ℕ) (s : Slot L), d.present[i]? = some (some s) → s.serial < d.began := by
    rcases hd with hd | hd
    · exact ⟨hinv.turned d hd, (hinv.remembered d hd).since, (hinv.remembered d hd).old⟩
    · exact ⟨(hinv.returned d hd).turned, (hinv.returned d hd).since, (hinv.returned d hd).old⟩
  refine ⟨hfacts.1, hheard, hfacts.2.1, ?_⟩
  intro s hs
  have hmem : some s ∈ d.called.map some := List.mem_map_of_mem hs
  rw [hheard] at hmem
  obtain ⟨i, hi⟩ := List.mem_iff_getElem?.mp ((taken_sublist d.present d.live).subset hmem)
  exact hfacts.2.2 i s hi

/-- What the invariant says of every state. -/
theorem Inv.contract (hinv : Inv capacity w) (hids : w.given.length ≤ ids) : Contract capacity w where
  unique := fun i hi j hj => slot_unique hinv hids hi hj
  refuses := fun listener => (refuses_iff listener).1
  refused := fun listener => (refuses_iff listener).2
  subscribes := fun listener id => subscribe_spec hinv listener
  unsubscribes := fun id => (unsubscribe_spec hinv hids id).1
  removes := fun id => (unsubscribe_spec hinv hids id).2
  clears := fun s => by
    rw [← Bool.not_eq_true, active_iff]
    rintro ⟨i, hi, hid, -⟩
    simp [clear, hi] at hid
  begins := fun huser =>
    ⟨beginDispatch capacity w, _, by simp [step, huser], rfl, rfl, rfl, rfl⟩
  turn := by
    intro d outer hdispatches hloop
    have hmem : d ∈ w.dispatches := by simp [hdispatches]
    have hwithin := (hinv.turned d hmem).within
    rw [hloop, Bool.toNat_false, Nat.add_zero] at hwithin
    refine ⟨advance capacity w d outer, by simp [step, hdispatches, hloop], ?_⟩
    unfold advance
    split
    · rename_i hi
      have hthere := fun hbefore =>
        (hinv.remembered d hmem).stillThere_iff hinv.slots hids hbefore hi
      have hmeans : stillThere capacity w d = true ↔ ∃ s, d.present[d.index]? = some (some s) ∧
          active capacity w s.serial = true := by
        unfold stillThere
        split
        · rename_i s hget
          simp [hget]
        · rename_i hnone
          constructor
          · nofun
          · rintro ⟨s, hget, -⟩
            exact absurd hget (hnone s)
      refine Or.inr ?_
      dsimp only
      split
      · rename_i hcall
        refine ⟨_, rfl, rfl, rfl, fun hbefore => ?_⟩
        have htrue := (hthere hbefore).mpr hcall
        exact ⟨by rw [htrue], iff_of_true rfl (hmeans.mp htrue)⟩
      · rename_i hskip
        refine ⟨_, rfl, rfl, rfl, fun hbefore => ?_⟩
        have hfalse : ¬stillThere capacity w d = true := mt (hthere hbefore).mp hskip
        refine ⟨?_, ?_⟩
        · rw [hloop, Bool.eq_false_iff.mpr hfalse]
        · rw [← hmeans]
          exact iff_of_false (by simp [hloop]) hfalse
    · rename_i hi
      exact Or.inl ⟨by omega, rfl, rfl⟩
  delivered := fun d hd => delivered_of_inv hinv hids hd
  complete := fun d hd => (hinv.returned d hd).complete

/-- CORRECT: with fewer than `2^64` subscriptions, whatever the listeners do, every dispatch that
    begins before the last of the ids is given reaches the listeners it should. -/
theorem delivery_contract (capacity : ℕ) (acts : List (Act L)) (w : World L)
    (hrun : run (step capacity) init acts = some w) (hfew : w.given.length < 2 ^ 64) :
    Contract capacity w := by
  have hids : w.given.length ≤ ids := by
    unfold ids
    omega
  exact (run_reaches_inv hrun).contract hids

/-- The first listener takes out the second, whose slot goes to a new one, and dispatches: only the
    inner dispatch reaches the new listener. -/
def sampleActs : List (Act ℕ) :=
  [.subscribe (some 10), .subscribe (some 20), .dispatch, .advance, .unsubscribe 2,
    .subscribe (some 30), .dispatch, .advance, .ret, .advance, .ret, .advance, .ret, .advance, .advance]

theorem delivery_contract_sample : ∃ w, run (step 2) init sampleActs = some w ∧
    w.returned.map (fun d => d.called.map Slot.listener) = [[some 10], [some 10, some 30]] ∧
    Contract 2 w := by
  have houtcome : (run (step 2) init sampleActs).map (fun w =>
      (w.returned.map (fun d => d.called.map Slot.listener), decide (w.given.length < 2 ^ 64))) =
      some ([[some 10], [some 10, some 30]], true) := by
    decide +kernel
  obtain ⟨w, hrun, hw⟩ := Option.map_eq_some_iff.mp houtcome
  obtain ⟨hcalled, hfew⟩ := Prod.mk.inj hw
  exact ⟨w, hrun, hcalled, delivery_contract 2 sampleActs w hrun (of_decide_eq_true hfew)⟩

/-! ### The last id -/

/-- Subscribing and clearing, over and over. -/
def churn : ℕ → List (Act Unit)
  | 0 => []
  | n + 1 => .subscribe (some ()) :: .clear :: churn n

theorem run_churn (n : ℕ) (w : World Unit) (hidle : w.dispatches = []) (hfree : (w.slots 0).id = 0) :
    ∃ w', run (step 1) w (churn n) = some w' ∧ w'.dispatches = [] ∧ (w'.slots 0).id = 0 ∧
      w'.given.length = w.given.length + n ∧ w'.returned = w.returned := by
  induction n generalizing w with
  | zero => exact ⟨w, rfl, hidle, hfree, rfl, rfl⟩
  | succ n ih =>
    have huser : userCode w = true := by simp [userCode, hidle]
    obtain ⟨w₁, hsub, hidle₁, hgiven₁, hreturned₁⟩ : ∃ w₁,
        step 1 w (.subscribe (some ())) = some w₁ ∧ w₁.dispatches = [] ∧
          w₁.given.length = w.given.length + 1 ∧ w₁.returned = w.returned := by
      refine ⟨_, by simp only [step, huser, if_true]; rfl, ?_⟩
      simp [trySubscribe, List.range_succ, hfree, hidle]
    have huser₁ : userCode w₁ = true := by simp [userCode, hidle₁]
    obtain ⟨w₂, hrest, hidle₂, hfree₂, hgiven₂, hreturned₂⟩ := ih (clear 1 w₁) hidle₁ (by simp [clear])
    refine ⟨w₂, ?_, hidle₂, hfree₂, ?_, hreturned₂.trans hreturned₁⟩
    · refine run_cons_some.mpr ⟨w₁, hsub, run_cons_some.mpr ⟨clear 1 w₁, ?_, hrest⟩⟩
      simp [step, huser₁]
    · rw [hgiven₂]
      change w₁.given.length + n = _
      omega

/-- The last subscription before the ids start over, in the only slot. -/
def lastSlot : Slot Unit := ⟨2 ^ 64 - 1, some (), 2 ^ 64 - 2⟩

/-- What becomes of a dispatch that begins then. -/
def silentDispatch : Dispatch Unit where
  firstUnheard := 1
  index := 1
  calling := false
  began := 2 ^ 64 - 1
  present := [some lastSlot]
  live := [true]
  called := []

/-- After `2^64 - 1` subscriptions, one fewer than the ids are documented to last for, the next id is
    1 again. A dispatch that begins then takes every listener for a newer one and calls nobody. -/
theorem last_id_silences_dispatch : ∃ (acts : List (Act Unit)) (w : World Unit),
    run (step 1) init acts = some w ∧ w.given.length < 2 ^ 64 ∧
      w.returned = [silentDispatch] ∧ w.slots 0 = lastSlot := by
  obtain ⟨w, hrun, hidle, hfree, hgiven, hreturned⟩ := run_churn (2 ^ 64 - 2) init rfl rfl
  have hlen : w.given.length = 2 ^ 64 - 2 := by
    rw [hgiven]
    rfl
  have hnext : w.nextId = 2 ^ 64 - 1 := by
    rw [(run_reaches_inv hrun).slots.next, hlen]
    decide
  let w' : World Unit :=
    { slots := update w.slots 0 lastSlot, nextId := 1, dispatches := [],
      given := w.given ++ [2 ^ 64 - 1], returned := [silentDispatch] }
  refine ⟨churn (2 ^ 64 - 2) ++ [.subscribe (some ()), .dispatch, .advance, .advance], w', ?_, ?_,
    rfl, by simp [w']⟩
  · have hempty : w.returned = [] := hreturned
    rw [run_append, hrun]
    simp [run, step, userCode, hidle, trySubscribe, List.range_succ, hfree, hnext, hlen, bump,
      beginDispatch, advance, stillThere, active, held, w', lastSlot, silentDispatch, hempty]
  · simp [w', hlen]

end Metl.EventDispatcher
