import Metl.Schemes.Run
import Metl.Sequences.RingCalls

/-! `ring_buffer` and `fixed_deque` are bounded double-ended lists.

        containers                     lists
        w ──── exec op ────▶ w'        σ ──── next op ────▶ σ'
        └──── Refines P σ ────────────────────┘

    After every run the containers hold the lists that the same calls make of empty lists, whatever the
    heads are. A constructor that throws leaves the lists alone. -/

namespace Metl.RingCore

open Metl.Schemes Metl.Schemes.Storage Metl.Schemes.Prog Function

variable {C A : Type} {P : Params A} {head : C → ℕ} {σ : C → List A} {w : World C A} {c : C}
  {args : Source C A} {R : World C A → Prop}

/-! ### What a caller sees -/

/-- `at(0)`, …, `at(size() - 1)` -/
def contents (P : Params A) (w : World C A) (c : C) : List (Option A) :=
  (List.range (w.regs.size c)).map fun i =>
    (w.cell (c, physicalIndex P.capacity (w.regs.head c) i)).map Prod.snd

/-- The containers hold the lists, only the slots of the logical range hold elements, and every element
    ever built is in one slot or was destroyed once. -/
structure Refines (P : Params A) (σ : C → List A) (w : World C A) : Prop where
  contents_eq : ∀ c, contents P w c = (σ c).map some
  bounded : ∀ c, (σ c).length ≤ P.capacity
  live_iff : ∀ c k, (w.cell (c, k)).isSome = true ↔
    ∃ i < w.regs.size c, k = physicalIndex P.capacity (w.regs.head c) i
  ledger : Ledger (fun p => (w.cell p).map Prod.fst) w.built w.destroyed

variable {i : ℕ} {a : A} {e : End} {op : Op C A} {w' : World C A}

theorem Ring.cell_at (h : Ring P head (filled σ) w) (hget : (σ c)[i]? = some a) :
    (w.cell (c, around P.capacity (head c) i)).map Prod.snd = some a := by
  rw [h.holds.shape]
  exact h.shape_at (by simp [filled, hget])

theorem Ring.refines (h : Ring P head (filled σ) w) : Refines P σ w where
  contents_eq := fun c => by
    have hfits := h.fits c
    unfold contents
    rw [h.holds.regs_eq]
    refine List.ext_getElem (by simp [lengths, filled]) fun i hi hi' => ?_
    have hlt : i < (σ c).length := by simpa using hi'
    simp only [filled, List.length_map] at hfits
    simp only [List.getElem_map, List.getElem_range]
    rw [physicalIndex_eq (h.head_lt c (by omega)) (by omega), h.cell_at (List.getElem?_eq_getElem hlt)]
  bounded := fun c => by simpa [filled] using h.fits c
  live_iff := fun c k => by
    have hfits := h.fits c
    rw [h.holds.regs_eq]
    change _ ↔ ∃ i < (filled σ c).length, _
    constructor
    · intro hlive
      have hsome : (shape P head (filled σ) (c, k)).isSome = true := by
        rw [← h.holds.shape, Option.isSome_map]
        exact hlive
      obtain ⟨a, ha⟩ := Option.isSome_iff_exists.mp hsome
      have hpos : 0 < P.capacity := by
        rcases Nat.eq_zero_or_pos P.capacity with hzero | hpos
        · simp [shape, circle, hzero] at ha
        · exact hpos
      obtain ⟨i, hi, hicap, -, hk⟩ := circle_eq_some (h.head_lt c hpos) ha
      exact ⟨i, hi, by rw [physicalIndex_eq (h.head_lt c hpos) (by omega)]; exact hk⟩
    · rintro ⟨i, hi, rfl⟩
      have hlt : i < (σ c).length := by simpa [filled] using hi
      have hcell := h.cell_at (List.getElem?_eq_getElem hlt)
      rw [← physicalIndex_eq (h.pos hi) (by omega)] at hcell
      rw [← Option.isSome_map (f := Prod.snd), hcell]
      rfl
  ledger := h.holds.ledger

theorem lists_init (hcap : 0 < P.capacity) : Lists P (fun _ => []) (init C A) := by
  refine ⟨fun _ => 0, ⟨fun p => ?_, rfl, Ledger.init⟩, fun c => by simp [filled], fun _ _ => hcap⟩
  simp [init, shape, filled, circle_nil]

/-- `slot` is that of the element at position `i` of `c`, and it holds `a`. -/
def Refers (P : Params A) (w : World C A) (c : C) (slot i : ℕ) (a : A) : Prop :=
  slot = physicalIndex P.capacity (w.regs.head c) i ∧ (w.cell (c, slot)).map Prod.snd = some a

theorem Ring.refers (h : Ring P head (filled σ) w) (hget : (σ c)[i]? = some a) :
    Refers P w c (around P.capacity (head c) i) i a := by
  obtain ⟨hi, -⟩ := List.getElem?_eq_some_iff.mp hget
  have hfits := h.fits c
  simp only [filled, List.length_map] at hfits
  refine ⟨?_, h.cell_at hget⟩
  rw [h.holds.regs_eq]
  exact (physicalIndex_eq (h.head_lt c (by omega)) (by omega)).symm

/-- The position of the newest of `n` elements. -/
def End.index : End → ℕ → ℕ
  | .back, n => n - 1
  | .front, _ => 0

variable [DecidableEq C]

/-- What the call returns; a refused `try` form changes nothing. -/
def Answers (P : Params A) (σ : C → List A) (w w' : World C A) : Op C A → Answer → Prop
  | .tryEmplace _ c _, ans =>
    ans = .flag (decide ((σ c).length < P.capacity)) ∧ ((σ c).length = P.capacity → w' = w)
  | .emplace e c args, ans => ∃ slot a, ans = .reference slot ∧ args.made σ = some a ∧
    Refers P w' c slot (e.index (w'.regs.size c)) a
  | .pushOverwrite c args, ans => ∃ slot a, ans = .reference slot ∧ args.made σ = some a ∧
    Refers P w' c slot (w'.regs.size c - 1) a
  | _, ans => ans = .done

/-- A call returns what it should and does to the lists what it should, or throws and leaves them. -/
def Fulfils (P : Params A) (σ : C → List A) (w : World C A) (op : Op C A) :
    Outcome (World C A) Answer → Prop
  | .ret ans w' => throws P σ op = false ∧ Refines P (next P σ op) w' ∧ Answers P σ w w' op ans
  | .thrown w' => throws P σ op = true ∧ Refines P σ w'
  | .stopped => False
  | .undefined => False

/-! ### Calls -/

/-- The lists a call leaves, and what it answers. -/
def Done (P : Params A) (σ : C → List A) (w : World C A) (op : Op C A) (ans : Answer) (w' : World C A) :
    Prop :=
  throws P σ op = false ∧ Lists P (next P σ op) w' ∧ Answers P σ w w' op ans

def Undone (P : Params A) (σ : C → List A) (op : Op C A) (w' : World C A) : Prop :=
  throws P σ op = true ∧ Lists P σ w'

theorem ends_tryEmplace (h : Lists P σ w) (hrange : args.inRange w.regs.size = true) :
    (exec P (.tryEmplace e c args)).Ends w (Done P σ w (.tryEmplace e c args))
      (Undone P σ (.tryEmplace e c args)) := by
  have hfits := h.fits c
  obtain ⟨head, hring⟩ := h
  refine ends_bind (ends_bindArgs hring hrange fun ctor hbound => ends_bind ?_)
  rcases Nat.eq_or_lt_of_le hfits with hfull | hroom
  · have hrefused : Done P σ w (.tryEmplace e c args) (.flag false) w := by
      refine ⟨by simp [throws, hfull], ?_, by simp [hfull], fun _ => rfl⟩
      simp only [next, if_pos hfull]
      exact ⟨head, hring⟩
    have hfilled : (filled σ c).length = P.capacity := by simpa [filled] using hfull
    cases e with
    | back => exact ends_tryEmplaceBack_full hring hfilled (ends_pure hrefused)
    | front => exact ends_tryEmplaceFront_full hring hfilled (ends_pure hrefused)
  · have hne : (σ c).length ≠ P.capacity := Nat.ne_of_lt hroom
    refine ends_tryEmplaceAt e hring hroom hbound ?_ ?_
    · intro a w' hmade hw'
      refine ends_pure ⟨by simp [throws, hmade], hw'.lists ?_, by simp [hroom], fun hfull => by omega⟩
      simp [next, insert, hne, hmade]
    · intro hmade w' hw'
      exact ⟨by simp [throws, hne, hmade], head, hw'⟩

theorem ends_emplace (h : Lists P σ w) (hroom : (σ c).length < P.capacity)
    (hrange : args.inRange w.regs.size = true) :
    (exec P (.emplace e c args)).Ends w (Done P σ w (.emplace e c args))
      (Undone P σ (.emplace e c args)) := by
  obtain ⟨head, hring⟩ := h
  have hhead := hring.head_lt c (by omega)
  refine ends_bind (ends_bindArgs hring hrange fun ctor hbound => ends_bind ?_)
  refine ends_emplaceAt e hring hroom hbound ?_ ?_
  · intro a w' hmade hw'
    refine ends_pure ⟨by simp [throws, hmade], hw'.lists (by simp [next, insert, hmade]), ?_⟩
    refine ⟨_, a, rfl, hmade, ?_⟩
    have hsize : w'.regs.size c = (σ c).length + 1 := by
      rw [hw'.holds.regs_eq]
      cases e with
      | back => simp [lengths, filled, End.add, args.length_leaves]
      | front => simp [lengths, filled, End.add, args.length_leaves]
    rw [hsize]
    cases e with
    | back =>
      refine hw'.refers ?_
      simp [End.add, args.length_leaves]
    | front =>
      have hslot : before P.capacity (head c) = around P.capacity (headAfter P head c .front c) 0 := by
        rw [headAfter, retreated, update_self, around_zero (before_lt hhead)]
      rw [newSlot, hslot]
      exact hw'.refers (by simp [End.add])
  · intro hmade w' hw'
    exact ⟨by simp [throws, hmade], head, hw'⟩

theorem ends_pushOverwriteCall (h : Lists P σ w) (hcap : 0 < P.capacity)
    (hspares : (σ c).length = P.capacity → P.movable = true ∨ args.spares c = true)
    (hrange : args.inRange w.regs.size = true) :
    (exec P (.pushOverwrite c args)).Ends w (Done P σ w (.pushOverwrite c args))
      (Undone P σ (.pushOverwrite c args)) := by
  obtain ⟨head, hring⟩ := h
  refine ends_bind (ends_bindArgs hring hrange fun ctor hbound => ends_bind ?_)
  refine ends_pushOverwrite hring hcap hbound hspares ?_ ?_
  · intro a head' w' hmade hw'
    refine ends_pure ⟨by simp [throws, hmade], ⟨head', hw'⟩, _, a, rfl, hmade, ?_⟩
    have hsize : w'.regs.size c = (next P σ (.pushOverwrite c args) c).length := by
      rw [hw'.holds.regs_eq]
      simp [lengths, filled]
    rw [hsize]
    refine hw'.refers ?_
    by_cases hfull : (σ c).length = P.capacity
    · simp [next, overwrite, hfull, hmade]
    · simp [next, insert, hfull, hmade, End.add]
  · intro hmade w' hw'
    exact ⟨by simp [throws, hmade], head, hw'⟩

/-- A call that returns nothing. -/
theorem ends_quietly {m : Prog (World C A) Unit} (hquiet : throws P σ op = false)
    (hans : ∀ w', Answers P σ w w' op .done)
    (hm : m.Ends w (fun _ w' => Lists P (next P σ op) w') fun _ => False) :
    (quietly m).Ends w (Done P σ w op) (Undone P σ op) :=
  ends_bind (hm.mono (fun _ w' hw' => ends_pure ⟨hquiet, hw', hans w'⟩) fun _ hfalse => hfalse.elim)

theorem ends_renew (h : Lists P σ w) (hcap : 0 < P.capacity) {Q : Unit → World C A → Prop}
    (hret : ∀ w', Lists P (update σ c []) w' → Q () w') : (renew P c).Ends w Q R := by
  refine ends_bind (ends_clear h fun w₁ h₁ => ?_)
  obtain ⟨head, hring⟩ := h₁
  refine ends_bind (ends_setHead hring.holds fun w₂ h₂ => ends_setSize h₂ fun w₃ h₃ => ?_)
  have hempty : filled (update σ c []) c = [] := by simp [filled]
  have hrewritten := hring.rewrite (l := []) 0 h₃ rfl ?_ (by simp) fun _ => hcap
  · refine hret w₃ (hrewritten.lists ?_)
    rw [← hempty, update_eq_self]
  · refine shape_congr ?_
    rw [hempty]
    funext k
    rw [circle_nil, circle_nil]

/-- STEP: every call within its preconditions does to the lists what it says. -/
theorem exec_ends (op : Op C A) (h : Lists P σ w) (hcap : 0 < P.capacity)
    (hvalid : op.valid P w.regs.size = true) : (exec P op).Ends w (Done P σ w op) (Undone P σ op) := by
  have hsize : w.regs.size = fun c => (σ c).length := by
    obtain ⟨head, hring⟩ := h
    rw [hring.holds.regs_eq]
    funext c
    simp [lengths, filled]
  cases op with
  | tryEmplace e c args => exact ends_tryEmplace h hvalid
  | emplace e c args =>
    obtain ⟨hroom, hrange⟩ := (Bool.and_eq_true _ _).mp hvalid
    rw [hsize] at hroom
    exact ends_emplace h (of_decide_eq_true hroom) hrange
  | pushOverwrite c args =>
    obtain ⟨hrange, hspares⟩ := (Bool.and_eq_true _ _).mp hvalid
    refine ends_pushOverwriteCall h hcap (fun hfull => ?_) hrange
    simpa [hsize, hfull] using hspares
  | popFront c =>
    refine ends_quietly rfl (fun _ => rfl) ?_
    obtain ⟨head, hring⟩ := h
    rcases hσ : σ c with _ | ⟨x, t⟩
    · simp [Op.valid, hsize, hσ] at hvalid
    · refine ends_popFront hring (a := x) (l := t.map some) (by simp [filled, hσ]) fun w' hw' => ?_
      refine hw'.lists ?_
      rw [next, hσ, filled_update, List.tail_cons]
  | popBack c =>
    refine ends_quietly rfl (fun _ => rfl) ?_
    obtain ⟨head, hring⟩ := h
    rcases List.eq_nil_or_concat (σ c) with hσ | ⟨t, x, hσ⟩
    · simp [Op.valid, hsize, hσ] at hvalid
    · rw [List.concat_eq_append] at hσ
      refine ends_popBack hring (a := x) (l := t.map some) (by simp [filled, hσ]) fun w' hw' => ?_
      refine hw'.lists ?_
      rw [next, hσ, filled_update, List.dropLast_concat]
  | clear c => exact ends_quietly rfl (fun _ => rfl) (ends_clear h fun w' hw' => hw')
  | copyConstruct c other =>
    have hne : c ≠ other := of_decide_eq_true hvalid
    refine ends_quietly rfl (fun _ => rfl) (ends_bind (ends_renew h hcap fun w₁ h₁ => ?_))
    refine ends_copyAll hne h₁ (update_self ..) fun w₂ h₂ => ?_
    rwa [update_idem, update_of_ne hne.symm] at h₂
  | moveConstruct c other =>
    have hne : c ≠ other := of_decide_eq_true hvalid
    refine ends_quietly rfl (fun _ => rfl) (ends_bind (ends_renew h hcap fun w₁ h₁ => ?_))
    refine ends_moveAll hne h₁ (update_self ..) fun w₂ h₂ => ?_
    rwa [update_idem, update_of_ne hne.symm] at h₂
  | copyAssign c other =>
    refine ends_quietly rfl (fun _ => rfl) ?_
    unfold copyAssign
    rcases eq_or_ne c other with rfl | hne
    · rw [if_pos rfl]
      refine ends_pure ?_
      rwa [next, update_eq_self]
    · rw [if_neg hne]
      refine ends_bind (ends_clear h fun w₁ h₁ => ?_)
      refine ends_copyAll hne h₁ (update_self ..) fun w₂ h₂ => ?_
      rwa [update_idem, update_of_ne (Ne.symm hne)] at h₂
  | moveAssign c other =>
    refine ends_quietly rfl (fun _ => rfl) ?_
    unfold moveAssign
    rcases eq_or_ne c other with rfl | hne
    · rw [if_pos rfl]
      refine ends_pure ?_
      rwa [next, if_pos rfl]
    · rw [if_neg hne]
      refine ends_bind (ends_clear h fun w₁ h₁ => ?_)
      refine ends_moveAll hne h₁ (update_self ..) fun w₂ h₂ => ?_
      rw [update_idem, update_of_ne (Ne.symm hne)] at h₂
      rwa [next, if_neg hne]
  | swap c other => exact ends_quietly rfl (fun _ => rfl) (ends_swapCore h fun w' hw' => hw')

/-! ### Runs -/

/-- A call within its preconditions; one that throws is caught by the caller. -/
def step (P : Params A) (w : World C A) (op : Op C A) : Option (World C A) :=
  if op.valid P w.regs.size then
    match exec P op w with
    | .ret _ w' => some w'
    | .thrown w' => some w'
    | .stopped => none
    | .undefined => none
  else none

theorem next_of_throws (h : throws P σ op = true) : next P σ op = σ := by
  cases op with
  | tryEmplace e c args =>
    obtain ⟨-, hnone⟩ := (Bool.and_eq_true _ _).mp h
    simp [next, insert, Option.isNone_iff_eq_none.mp hnone]
  | emplace e c args => simp [next, insert, Option.isNone_iff_eq_none.mp h]
  | pushOverwrite c args => simp [next, insert, overwrite, Option.isNone_iff_eq_none.mp h]
  | _ => cases h

theorem step_lists (h : Lists P σ w) (hcap : 0 < P.capacity) (hstep : step P w op = some w') :
    Lists P (next P σ op) w' := by
  unfold step at hstep
  split at hstep
  · rename_i hvalid
    have hends := exec_ends op h hcap hvalid
    unfold Prog.Ends Prog.EndsOr at hends
    split at hends
    · rename_i ans w₁ hexec
      simp only [hexec, Option.some.injEq] at hstep
      exact hstep ▸ hends.2.1
    · rename_i w₁ hexec
      simp only [hexec, Option.some.injEq] at hstep
      rw [next_of_throws hends.1]
      exact hstep ▸ hends.2
    · exact hends.elim
    · exact hends.elim
  · cases hstep

/-- RUN: the lists after a run are those of the calls performed on lists. -/
theorem run_lists (hcap : 0 < P.capacity) (ops : List (Op C A)) (h : Lists P σ w)
    (hrun : run (step P) w ops = some w') : Lists P (ops.foldl (next P) σ) w' :=
  run_rel (next P) (fun w σ => Lists P σ w) (fun _ _ _ _ h => step_lists h hcap) h hrun

/-- CORRECT: after every run the containers hold the lists that the same calls make of empty lists; every
    call within its preconditions does to the lists, and answers, what it says; and once all lists
    are empty every element ever built has been destroyed once. -/
theorem rings_refine_lists (P : Params A) (hcap : 0 < P.capacity) (ops : List (Op C A))
    (w : World C A) (hrun : run (step P) (init C A) ops = some w) :
    Refines P (ops.foldl (next P) fun _ => []) w ∧
      (∀ op : Op C A, op.valid P w.regs.size = true →
        Fulfils P (ops.foldl (next P) fun _ => []) w op (exec P op w)) ∧
      ((∀ c, ops.foldl (next P) (fun _ => []) c = []) → w.destroyed.Perm (List.range w.built)) := by
  have hlists := run_lists hcap ops (lists_init hcap) hrun
  have hrefines : ∀ {σ : C → List A} {w : World C A}, Lists P σ w → Refines P σ w := by
    rintro σ w ⟨head, hring⟩
    exact hring.refines
  refine ⟨hrefines hlists, fun op hvalid => ?_, fun hempty => ?_⟩
  · have hends := exec_ends op hlists hcap hvalid
    unfold Prog.Ends Prog.EndsOr at hends
    unfold Fulfils
    split at hends
    · rename_i ans w' hexec
      rw [hexec]
      exact ⟨hends.1, hrefines hends.2.1, hends.2.2⟩
    · rename_i w' hexec
      rw [hexec]
      exact ⟨hends.1, hrefines hends.2⟩
    · exact hends.elim
    · exact hends.elim
  · obtain ⟨head, hring⟩ := hlists
    refine hring.holds.ledger.perm_range fun p => ?_
    have hnone := hring.holds.shape p
    rw [shape, filled, hempty, List.map_nil, circle_nil, Option.map_eq_none_iff] at hnone
    rw [hnone]
    rfl

/-- Two rings of three slots of numbers, of which a move leaves zero. -/
def sampleParams : Params ℕ := ⟨3, true, true, fun _ => 0⟩

def sampleOps : List (Op Bool ℕ) :=
  [.emplace .back false (.value 1), .emplace .front false (.value 2), .tryEmplace .back false .throws,
    .emplace .back false (.element false 0 id id), .pushOverwrite false (.element false 0 id id),
    .emplace .back true (.value 7), .swap false true]

theorem rings_refine_lists_sample : ∃ w, run (step sampleParams) (init Bool ℕ) sampleOps = some w ∧
    contents sampleParams w true = [some 1, some 2, some 2] ∧
    contents sampleParams w false = [some 7] := by
  have hruns : (run (step sampleParams) (init Bool ℕ) sampleOps).isSome = true := by decide +kernel
  obtain ⟨w, hw⟩ := Option.isSome_iff_exists.mp hruns
  have hrefines := (rings_refine_lists sampleParams (by decide) sampleOps w hw).1
  exact ⟨w, hw, (hrefines.contents_eq true).trans (by decide +kernel),
    (hrefines.contents_eq false).trans (by decide +kernel)⟩

end Metl.RingCore
