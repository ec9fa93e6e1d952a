import Metl.Schemes.HeapOrder
import Metl.Schemes.Run

/-! The binary heap of `fixed_priority_queue.hpp`.

        push     append, sift_up         the last slot rises while it outranks its parent
        pop      last to 0, sift_down    the first slot sinks while a child outranks it
        erase_if compact, heapify        sift_down on every inner slot, deepest first

    The queue is the row of its elements; what a move leaves behind is overwritten or dropped before
    it is read again. Moves and the comparator do not throw here. -/

namespace Metl.FixedPriorityQueue
open Metl.Schemes

variable {α : Type} (comp : α → α → Bool)

/-! ### The algorithms -/

/-- `comp_(storage_[i], storage_[j])`, at slots in use. -/
def compAt (l : List α) (i j : ℕ) : Bool :=
  match l[i]?, l[j]? with
  | some a, some b => comp a b
  | _, _ => false

def swapSlots (l : List α) (a b : ℕ) : List α :=
  match l[a]?, l[b]? with
  | some x, some y => (l.set a y).set b x
  | _, _ => l

/-- The loop of `sift_up`; `index` bounds its rounds. -/
def siftUpLoop : ℕ → List α → ℕ → List α
  | 0, l, _ => l
  | fuel + 1, l, index =>
    if index = 0 then l
    else if compAt comp l (parent index) index then
      siftUpLoop fuel (swapSlots l (parent index) index) (parent index)
    else l

def siftUp (l : List α) (index : ℕ) : List α := siftUpLoop comp index l index

/-- The loop of `sift_down`; the slots below `index` bound its rounds. -/
def siftDownLoop : ℕ → List α → ℕ → List α
  | 0, l, _ => l
  | fuel + 1, l, index =>
    let left := 2 * index + 1
    if left < l.length then
      let right := left + 1
      let best := if right < l.length ∧ compAt comp l left right then right else left
      if compAt comp l index best then siftDownLoop fuel (swapSlots l index best) best else l
    else l

def siftDown (l : List α) (index : ℕ) : List α := siftDownLoop comp (l.length - index) l index

/-- The loop of `heapify`, from `index` down. -/
def heapifyLoop : ℕ → List α → List α
  | 0, l => l
  | index + 1, l => heapifyLoop index (siftDown comp l index)

def heapify (l : List α) : List α := heapifyLoop comp (l.length / 2) l

/-- `try_push`; `none` if the queue is full. -/
def tryPush (capacity : ℕ) (l : List α) (value : α) : Option (List α) :=
  if l.length = capacity then none else some (siftUp comp (l ++ [value]) l.length)

/-- `push`; `none` is the assertion. -/
def push (capacity : ℕ) (l : List α) (value : α) : Option (List α) := tryPush comp capacity l value

/-- `pop`; `none` is the `METL_HARDEN` on an empty queue. -/
def pop (l : List α) : Option (List α) :=
  l.getLast?.map fun back =>
    let moved := if l.length - 1 ≠ 0 then l.set 0 back else l
    let rest := moved.dropLast
    if rest.isEmpty then rest else siftDown comp rest 0

/-- The compacting loop of `erase_if`, with `left` elements to read: the row, and how many stay. -/
def compactLoop (pred : α → Bool) : ℕ → ℕ → ℕ → List α → List α × ℕ
  | 0, _, write, l => (l, write)
  | left + 1, read, write, l =>
    match l[read]? with
    | none => (l, write)
    | some x =>
      if pred x then compactLoop pred left (read + 1) write l
      else
        let l := if write ≠ read then l.set write x else l
        compactLoop pred left (read + 1) (write + 1) l

/-- `erase_if`: the queue, and how many elements were removed. -/
def eraseIf (pred : α → Bool) (l : List α) : List α × ℕ :=
  let r := compactLoop pred l.length 0 0 l
  (heapify comp (r.1.take r.2), l.length - r.2)

/-! ### Sifting -/

variable {comp} {l : List α}

variable {i j fuel index k : ℕ}

theorem compAt_eq_true :
    compAt comp l i j = true ↔ ∃ a b, l[i]? = some a ∧ l[j]? = some b ∧ comp a b = true := by
  unfold compAt
  split
  · rename_i a b ha hb
    simp [ha, hb]
  · rename_i hnone
    constructor
    · nofun
    · rintro ⟨a, b, ha, hb, -⟩
      exact absurd hb (hnone a b ha)

theorem above_of_compAt (h : ¬compAt comp l i j = true) : Above comp l i j := by
  intro a b ha hb
  by_contra hcomp
  exact h (compAt_eq_true.mpr ⟨a, b, ha, hb, by simpa using hcomp⟩)

theorem swapSlots_perm (l : List α) (a b : ℕ) : (swapSlots l a b).Perm l := by
  unfold swapSlots
  split
  · rename_i x y hx hy
    obtain ⟨ha, rfl⟩ := List.getElem?_eq_some_iff.mp hx
    obtain ⟨hb, rfl⟩ := List.getElem?_eq_some_iff.mp hy
    exact List.set_set_perm ha hb
  · exact List.Perm.refl l

theorem swapSlots_exchanged {a b : ℕ} (ha : a < l.length) (hb : b < l.length) :
    Exchanged l (swapSlots l a b) a b := by
  intro k
  simp only [swapSlots, List.getElem?_eq_getElem ha, List.getElem?_eq_getElem hb,
    List.getElem?_set, List.length_set]
  by_cases hka : k = a
  · by_cases hkb : b = a
    · simp [hka, hkb, ha]
    · simp [hka, hkb, ha]
  · rcases eq_or_ne k b with rfl | hkb
    · simp [hka, hb]
    · simp [Ne.symm hka, Ne.symm hkb, hka, hkb]

section

variable (hc : StrictWeak comp)
include hc

/-- RUN: an element that only fails its parent rises into place. -/
theorem siftUpLoop_spec (hfuel : index ≤ fuel) (hi : index < l.length) (h : Raised comp l index) :
    HeapFrom comp (siftUpLoop comp fuel l index) 0 ∧ (siftUpLoop comp fuel l index).Perm l := by
  induction fuel generalizing l index with
  | zero =>
    have hzero : index = 0 := by omega
    exact ⟨h.heap fun hpos => by omega, List.Perm.refl l⟩
  | succ fuel ih =>
    rw [siftUpLoop]
    split
    · exact ⟨h.heap fun hpos => by omega, List.Perm.refl l⟩
    · rename_i hne
      have hpos : 0 < index := Nat.pos_of_ne_zero hne
      have hlt : parent index < index := parent_lt hpos
      split
      · rename_i hcomp
        obtain ⟨a, b, ha, hb, hab⟩ := compAt_eq_true.mp hcomp
        have hx := swapSlots_exchanged (Nat.lt_trans hlt hi) hi
        have hperm := swapSlots_perm l (parent index) index
        have hlen := hperm.length_eq
        obtain ⟨hheap, hperm'⟩ := ih (by omega) (by omega) (h.up hc hpos ha hb hab hx)
        exact ⟨hheap, hperm'.trans hperm⟩
      · rename_i hcomp
        exact ⟨h.heap fun _ => above_of_compAt hcomp, List.Perm.refl l⟩

/-- The child that `sift_down` picks is not outranked by the other. -/
theorem best_above {best : ℕ} (hbest : best = if 2 * index + 1 + 1 < l.length ∧
      compAt comp l (2 * index + 1) (2 * index + 1 + 1) = true then 2 * index + 1 + 1
      else 2 * index + 1) :
    ∀ j, 0 < j → parent j = index → Above comp l best j := by
  intro j hj hp a b ha hb
  have hcases := (parent_eq_iff hj).mp hp
  have hjlen := (List.getElem?_eq_some_iff.mp hb).1
  split at hbest
  · rename_i hright
    obtain ⟨x, y, hx, hy, hxy⟩ := compAt_eq_true.mp hright.2
    subst hbest
    rw [hy] at ha
    cases ha
    rcases hcases with rfl | rfl
    · rw [hx] at hb
      cases hb
      exact hc.asymm _ _ hxy
    · rw [hy] at hb
      cases hb
      exact hc.irrefl _
  · rename_i hleft
    subst hbest
    rcases hcases with rfl | rfl
    · rw [ha] at hb
      cases hb
      exact hc.irrefl _
    · exact above_of_compAt (fun h => hleft ⟨hjlen, h⟩) a b ha hb

/-- RUN: an element that only fails its children sinks into place. -/
theorem siftDownLoop_spec (hfuel : l.length ≤ fuel + index) (h : Lowered comp l index k) :
    HeapFrom comp (siftDownLoop comp fuel l index) k ∧ (siftDownLoop comp fuel l index).Perm l := by
  induction fuel generalizing l index with
  | zero =>
    refine ⟨h.heap ?_, List.Perm.refl l⟩
    intro j _ _ a b ha _
    have hlt := (List.getElem?_eq_some_iff.mp ha).1
    omega
  | succ fuel ih =>
    rw [siftDownLoop]
    dsimp only
    split
    · rename_i hleft
      generalize hbest : (if 2 * index + 1 + 1 < l.length ∧
        compAt comp l (2 * index + 1) (2 * index + 1 + 1) = true then 2 * index + 1 + 1
        else 2 * index + 1) = best
      have habove := best_above hc hbest.symm
      have hchild : best = 2 * index + 1 ∨ best = 2 * index + 2 := by
        rw [← hbest]
        split <;> simp
      have hblen : best < l.length := by
        rw [← hbest]
        split
        · rename_i hright
          exact hright.1
        · exact hleft
      have hpos : 0 < best := by omega
      have hparent : parent best = index := (parent_eq_iff hpos).mpr hchild
      split
      · rename_i hcomp
        obtain ⟨a, b, ha, hb, hab⟩ := compAt_eq_true.mp hcomp
        have hilen : index < l.length := by omega
        have hx := swapSlots_exchanged hilen hblen
        have hperm := swapSlots_perm l index best
        have hlen := hperm.length_eq
        obtain ⟨hheap, hperm'⟩ := ih (by omega) (h.down hc hpos hparent habove ha hb hab hx)
        exact ⟨hheap, hperm'.trans hperm⟩
      · rename_i hcomp
        refine ⟨h.heap ?_, List.Perm.refl l⟩
        intro j hj hp a b ha hb
        have hmid : l[best]? = some l[best] := List.getElem?_eq_getElem hblen
        exact hc.trans a _ b (above_of_compAt hcomp a _ ha hmid) (habove j hj hp _ b hmid hb)
    · rename_i hleft
      refine ⟨h.heap ?_, List.Perm.refl l⟩
      intro j hj hp a b _ hb
      have hlt := (List.getElem?_eq_some_iff.mp hb).1
      have hcases := (parent_eq_iff hj).mp hp
      omega

theorem siftDown_spec (h : Lowered comp l index k) :
    HeapFrom comp (siftDown comp l index) k ∧ (siftDown comp l index).Perm l :=
  siftDownLoop_spec hc (by omega) h

/-- RUN: what is in order from `index` on is in order from 0 on. -/
theorem heapifyLoop_spec (h : HeapFrom comp l index) :
    HeapFrom comp (heapifyLoop comp index l) 0 ∧ (heapifyLoop comp index l).Perm l := by
  induction index generalizing l with
  | zero => exact ⟨h, List.Perm.refl l⟩
  | succ index ih =>
    have hlow : Lowered comp l index index := by
      refine ⟨Nat.le_refl index, ?_, ?_⟩
      · intro j hj hk hne
        exact h j hj (by omega)
      · intro hpos hk
        have hlt := parent_lt hpos
        omega
    obtain ⟨hheap, hperm⟩ := siftDown_spec hc hlow
    obtain ⟨hheap', hperm'⟩ := ih hheap
    exact ⟨hheap', hperm'.trans hperm⟩

theorem heapify_spec (l : List α) : HeapFrom comp (heapify comp l) 0 ∧ (heapify comp l).Perm l := by
  refine heapifyLoop_spec hc ?_
  intro j hj hk a b _ hb
  have hlt := (List.getElem?_eq_some_iff.mp hb).1
  have hp := (parent_eq_iff hj).mp rfl
  omega

/-! ### The operations -/

/-- A push into a queue with room adds one element. -/
theorem tryPush_spec {capacity : ℕ} (hheap : HeapFrom comp l 0) (hroom : l.length ≠ capacity)
    (value : α) : ∃ l', tryPush comp capacity l value = some l' ∧
      HeapFrom comp l' 0 ∧ l'.Perm (value :: l) := by
  have hraised : Raised comp (l ++ [value]) l.length := by
    refine ⟨?_, ?_⟩
    · intro j hj hne a b ha hb
      have hlen := (List.getElem?_eq_some_iff.mp hb).1
      have hlt := parent_lt hj
      simp only [List.length_append, List.length_singleton] at hlen
      rw [List.getElem?_append_left (by omega)] at ha hb
      exact hheap j hj (Nat.zero_le _) a b ha hb
    · intro _ j hj hp a b _ hb
      have hlen := (List.getElem?_eq_some_iff.mp hb).1
      have hlt := parent_lt hj
      simp only [List.length_append, List.length_singleton] at hlen
      omega
  obtain ⟨hheap', hperm⟩ := siftUpLoop_spec hc (Nat.le_refl _) (by simp) hraised
  have hlast : (l ++ [value]).Perm ([value] ++ l) := List.perm_append_comm
  exact ⟨_, by rw [tryPush, if_neg hroom]; rfl, hheap', hperm.trans hlast⟩

/-- Popping takes out the top. -/
theorem pop_spec (hheap : HeapFrom comp l 0) {top : α} (htop : l[0]? = some top) :
    ∃ l', pop comp l = some l' ∧ HeapFrom comp l' 0 ∧ l.Perm (top :: l') := by
  cases l with
  | nil => cases htop
  | cons a t =>
    cases htop
    rcases List.eq_nil_or_concat t with rfl | ⟨mid, back, rfl⟩
    · refine ⟨[], rfl, ?_, List.Perm.refl _⟩
      intro j _ _ x y hx _
      cases hx
    · have hlow : Lowered comp (back :: mid) 0 0 := by
        have hsame : ∀ j x, 0 < j → (back :: mid)[j]? = some x →
            (top :: mid.concat back)[j]? = some x := by
          intro j x hj hx
          obtain ⟨j, rfl⟩ := Nat.exists_eq_succ_of_ne_zero (Nat.ne_of_gt hj)
          simp only [Nat.succ_eq_add_one, List.getElem?_cons_succ] at hx ⊢
          have hlt := (List.getElem?_eq_some_iff.mp hx).1
          rw [List.concat_eq_append, List.getElem?_append_left hlt, hx]
        refine ⟨Nat.le_refl 0, ?_, fun h => absurd h (Nat.lt_irrefl 0)⟩
        intro j hj hk hne x y hx hy
        exact hheap j hj hk x y (hsame _ x (Nat.pos_of_ne_zero hne) hx) (hsame j y hj hy)
      obtain ⟨hheap', hperm⟩ := siftDown_spec hc hlow
      refine ⟨siftDown comp (back :: mid) 0, ?_, hheap', ?_⟩
      · simp [pop, List.getLast?_cons, List.dropLast_cons_of_ne_nil]
      · refine List.Perm.cons top ?_
        rw [List.concat_eq_append]
        have hlast : (mid ++ [back]).Perm ([back] ++ mid) := List.perm_append_comm
        exact hlast.trans hperm.symm

end

/-- RUN: the compacting loop keeps what was kept before and what is still to be kept. -/
theorem compactLoop_spec (pred : α → Bool) {left read write : ℕ} (hleft : read + left = l.length)
    (hwrite : write ≤ read) :
    (compactLoop pred left read write l).2 ≤ (compactLoop pred left read write l).1.length ∧
    (compactLoop pred left read write l).1.take (compactLoop pred left read write l).2 =
      l.take write ++ (l.drop read).filter fun x => !pred x := by
  induction left generalizing read write l with
  | zero =>
    have hend : l.drop read = [] := List.drop_eq_nil_of_le (by omega)
    refine ⟨?_, by simp [compactLoop, hend]⟩
    change write ≤ l.length
    omega
  | succ left ih =>
    have hlt : read < l.length := by omega
    have hdrop : l.drop read = l[read] :: l.drop (read + 1) := List.drop_eq_getElem_cons hlt
    simp only [compactLoop, List.getElem?_eq_getElem hlt, hdrop]
    cases hpred : pred l[read] with
    | true =>
      simp only [if_true]
      rw [List.filter_cons_of_neg (by simp [hpred])]
      exact ih (by omega) (by omega)
    | false =>
      have hrow : (if write ≠ read then l.set write l[read] else l) = l.set write l[read] := by
        split
        · rfl
        · rename_i hsame
          rw [not_not] at hsame
          subst hsame
          exact (List.set_getElem_self hlt).symm
      have htake : (l.set write l[read]).take (write + 1) = l.take write ++ [l[read]] := by
        rw [List.take_add_one, List.take_set_of_le (Nat.le_refl write), List.getElem?_set_self (by omega)]
        rfl
      simp only [Bool.false_eq_true, if_false, hrow]
      have hlen : read + 1 + left = (l.set write l[read]).length := by
        rw [List.length_set]
        omega
      obtain ⟨hle, hkept⟩ := ih hlen (Nat.succ_le_succ hwrite)
      refine ⟨hle, ?_⟩
      rw [hkept, htake, List.drop_set_of_lt (by omega), List.filter_cons_of_pos (by simp [hpred]),
        List.append_assoc, List.singleton_append]

/-- Erasing leaves a heap of the elements to keep, and counts the others. -/
theorem eraseIf_spec (hc : StrictWeak comp) (pred : α → Bool) (l : List α) :
    HeapFrom comp (eraseIf comp pred l).1 0 ∧ (eraseIf comp pred l).1.Perm (l.filter fun x => !pred x) ∧
      ((eraseIf comp pred l).2 = 0 ↔ ∀ x ∈ l, pred x = false) := by
  obtain ⟨hle, hkept⟩ := compactLoop_spec (l := l) pred (Nat.zero_add _) (Nat.le_refl 0)
  rw [List.take_zero, List.nil_append, List.drop_zero] at hkept
  obtain ⟨hheap, hperm⟩ := heapify_spec hc
    ((compactLoop pred l.length 0 0 l).1.take (compactLoop pred l.length 0 0 l).2)
  refine ⟨hheap, hperm.trans (List.Perm.of_eq hkept), ?_⟩
  have hcount : (compactLoop pred l.length 0 0 l).2 = (l.filter fun x => !pred x).length := by
    rw [← hkept, List.length_take]
    omega
  have hall : (l.filter fun x => !pred x).length = l.length ↔ ∀ x ∈ l, pred x = false := by
    rw [List.length_filter_eq_length_iff]
    simp
  have hless := List.length_filter_le (fun x => !pred x) l
  rw [← hall, eraseIf, hcount]
  dsimp only
  omega

/-! ### Every run -/

inductive Call (α : Type) where
  | tryPush (value : α)
  | pop
  | eraseIf (pred : α → Bool)

def step (comp : α → α → Bool) (capacity : ℕ) (l : List α) : Call α → Option (List α)
  | .tryPush value => some ((tryPush comp capacity l value).getD l)
  | .pop => pop comp l
  | .eraseIf pred => some (eraseIf comp pred l).1

/-- What a call does to the elements, whatever their order. -/
def Does (comp : α → α → Bool) (capacity : ℕ) (l l' : List α) : Call α → Prop
  | .tryPush value => l'.Perm (if l.length = capacity then l else value :: l)
  | .pop => ∃ top, (∀ b ∈ l, comp top b = false) ∧ l.Perm (top :: l')
  | .eraseIf pred => l'.Perm (l.filter fun x => !pred x)

theorem Does.length_le {l' : List α} {capacity : ℕ} {c : Call α} (h : Does comp capacity l l' c)
    (hl : l.length ≤ capacity) : l'.length ≤ capacity := by
  cases c <;> grind [Does, → List.Perm.length_eq, List.length_filter_le]

/-- STEP: a call does what it says and leaves a heap; only `pop` needs an element. -/
theorem step_spec (hc : StrictWeak comp) (capacity : ℕ) (h : HeapFrom comp l 0) (c : Call α) :
    (∃ l', step comp capacity l c = some l' ∧ HeapFrom comp l' 0 ∧ Does comp capacity l l' c) ∨
      c = .pop ∧ l = [] := by
  cases c with
  | tryPush value =>
    refine .inl ⟨_, rfl, ?_⟩
    rcases eq_or_ne l.length capacity with hfull | hroom
    · simp [tryPush, Does, hfull, h]
    · obtain ⟨l', hpush, hheap, hperm⟩ := tryPush_spec hc h hroom value
      simp [Does, hpush, hroom, hheap, hperm]
  | pop =>
    cases l with
    | nil => exact .inr ⟨rfl, rfl⟩
    | cons top l =>
      obtain ⟨l', hpop, hheap, hperm⟩ := pop_spec hc h rfl
      exact .inl ⟨l', hpop, hheap, top, fun _ => h.top hc rfl, hperm⟩
  | eraseIf pred => exact .inl ⟨_, rfl, (eraseIf_spec hc pred l).1, (eraseIf_spec hc pred l).2.1⟩

/-- CORRECT: after any calls the queue is within its capacity, and every call does what it says: `pop`
    takes an element that no other outranks. -/
theorem bounded_priority_queue (hc : StrictWeak comp) (capacity : ℕ) (calls : List (Call α))
    (hrun : run (step comp capacity) [] calls = some l) : l.length ≤ capacity ∧
    ∀ c, (∃ l', step comp capacity l c = some l' ∧ Does comp capacity l l' c) ∨ c = .pop ∧ l = [] := by
  have h := run_inv (I := fun l => HeapFrom comp l 0 ∧ l.length ≤ capacity) (fun l c l' h hstep => by
      rcases step_spec hc capacity h.1 c with ⟨_, hl, hheap, hdoes⟩ | ⟨rfl, rfl⟩
      · cases hl.symm.trans hstep
        exact ⟨hheap, hdoes.length_le h.2⟩
      · cases hstep) calls [] l ⟨(fun _ _ _ _ _ ha => nomatch ha), Nat.zero_le capacity⟩ hrun
  exact ⟨h.2, fun c => (step_spec hc capacity h.1 c).imp_left fun ⟨l', hl, _, hd⟩ => ⟨l', hl, hd⟩⟩

theorem bounded_priority_queue_sample : ∃ l', Does (fun a b : ℕ => decide (a < b)) 2 [5, 3] l' .pop := by
  have hc : StrictWeak fun a b : ℕ => decide (a < b) := ⟨by simp; omega, by simp; omega⟩
  have h := (bounded_priority_queue hc 2 [.tryPush 3, .tryPush 5, .tryPush 4] (l := [5, 3]) rfl).2 .pop
  exact (h.resolve_right nofun).imp fun _ h => h.2

end Metl.FixedPriorityQueue
