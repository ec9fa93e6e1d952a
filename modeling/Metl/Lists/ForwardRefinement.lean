import Metl.Lists.ForwardList

/-! The lists of an `intrusive_forward_list` program refine plain sequences, changed as
    `std::forward_list` changes its own.

        σ.seq l = [a, b, c]        head l ──► a ──► b ──► c ──► ⊥
        insert_after (at b) x      [a, b, x, c]
        erase_after (at a)         [a, c], returns the position of c
        erase c                    [a, b], after a walk from the head to b

    Every list is a thread from its head through its sequence, and the books of owners and lengths
    agree with the sequences. The element `erase(t)` looks for is on the thread of the list that owns
    it, so the walk ends at its one predecessor. -/

namespace Metl.IntrusiveForwardList

open Metl.Schemes Function
open Metl.IntrusiveList (Node Abs Books Family cut_elem)
open Metl.IntrusiveList.Abs (InList elem? assign)

variable {L E : Type}

/-! ### The abstract lists -/

section Abs
variable [DecidableEq L] [DecidableEq E]

/-- The sequence up to a position, the element there included; `none` is the position before the
    first element. -/
def upTo (pos : Option E) (es : List E) : List E :=
  match pos with
  | none => []
  | some e => es.takeWhile (fun a => a ≠ e) ++ [e]

/-- The sequence after a position. -/
def beyond (pos : Option E) (es : List E) : List E :=
  match pos with
  | none => es
  | some e => (es.dropWhile fun a => a ≠ e).tail

/-- The documented preconditions. -/
def Pre (σ : Abs L E) : Action L E → Prop
  | .pushFront _ value => σ.Unlinked value
  | .popFront l => σ.seq l ≠ []
  | .insertAfter l pos value => σ.Unlinked value ∧ ∃ n, pos = some n ∧ InList l (σ.seq l) n
  | .eraseAfter l pos =>
    ∃ n, pos = some n ∧ InList l (σ.seq l) n ∧ beyond (elem? n) (σ.seq l) ≠ []
  | .erase l value => value ∈ σ.seq l
  | .clear _ => True
  | .destroyList _ => True
  | .destroyElem value => σ.Unlinked value

/-- What the `std::forward_list` operation of the same name leaves. -/
def next (σ : Abs L E) : Action L E → Abs L E
  | .pushFront l value => σ.assign l (value :: σ.seq l)
  | .popFront l => σ.assign l (σ.seq l).tail
  | .insertAfter l pos value =>
    σ.assign l (upTo (pos.bind elem?) (σ.seq l) ++ value :: beyond (pos.bind elem?) (σ.seq l))
  | .eraseAfter l pos =>
    σ.assign l (upTo (pos.bind elem?) (σ.seq l) ++ (beyond (pos.bind elem?) (σ.seq l)).tail)
  | .erase l value => σ.assign l ((σ.seq l).erase value)
  | .clear l => σ.assign l []
  | .destroyList l => { σ.assign l [] with listAlive := update σ.listAlive l false }
  | .destroyElem value => { σ with elemAlive := update σ.elemAlive value false }

/-- The iterator the call returns. -/
def ret (σ : Abs L E) : Action L E → Option (Option (Node L E))
  | .insertAfter _ _ value => some (some (.elem value))
  | .eraseAfter l pos => some ((beyond (pos.bind elem?) (σ.seq l)).tail.head?.map .elem)
  | _ => none

end Abs

/-! ### Threads -/

/-- The nodes of list `l`, from its head on. -/
def line (l : L) (es : List E) : List (Node L E) := .head l :: es.map .elem

section Threads
variable {w : World L E} {seq : L → List E} {l m : L} {x y : E} {es ys : List E} {n : Node L E}

theorem mem_line : n ∈ line l es ↔ InList l es n := by
  simp only [line, List.mem_cons, List.mem_map, InList, eq_comm]

theorem line_nodup (l : L) (h : es.Nodup) : (line l es).Nodup := by
  refine List.nodup_cons.mpr ⟨by simp, h.map ?_⟩
  intro a b hab
  injection hab

theorem elem_not_mem_line (h : x ∉ es) : Node.elem x ∉ line l es := by
  simp [line, h]

theorem line_disjoint (hfam : Family seq) (hml : m ≠ l) (hn : n ∈ line m (seq m)) :
    n ∉ line l (seq l) := by
  rw [mem_line] at hn ⊢
  rintro (rfl | ⟨e, he, rfl⟩)
  · rcases hn with hn | ⟨e, -, hn⟩
    · exact hml (by injection hn with hn; exact hn.symm)
    · cases hn
  · rcases hn with hn | ⟨e', he', hn⟩
    · cases hn
    · injection hn with hn
      exact hml (hfam.disjoint e m l (hn ▸ he') he)

theorem line_append {u : List (Node L E)} {as bs : List E} (h : line l as = u ++ [n]) :
    line l (as ++ bs) = u ++ n :: bs.map .elem := by
  have happend : line l (as ++ bs) = line l as ++ bs.map .elem := by simp [line]
  rw [happend, h, List.append_assoc, List.singleton_append]

variable [DecidableEq E]

/-- A list cut at a position. -/
theorem cut_line (hn : InList l es n) : es = upTo (elem? n) es ++ beyond (elem? n) es ∧
    ∃ u, line l (upTo (elem? n) es) = u ++ [n] := by
  rcases hn with rfl | ⟨e, he, rfl⟩
  · exact ⟨rfl, [], rfl⟩
  · obtain ⟨as, bs, hes, -, htake, hdrop⟩ := cut_elem he
    simp only [elem?, upTo, beyond, htake, hdrop, List.tail_cons]
    exact ⟨by rw [hes]; simp, .head l :: as.map .elem, by simp [line]⟩

variable [DecidableEq L] {next : Node L E → Option (Node L E)}

/-- STEP: a free element is linked in after a position of `l`. -/
theorem link_threads (hthread : ∀ m, Thread next (line m (seq m))) (hfam : Family seq)
    (hn : InList l (seq l) n) (hx : ∀ m, x ∉ seq m) (m : L) : Thread (slistLinkAfter next n (.elem x))
      (line m (update seq l (upTo (elem? n) (seq l) ++ x :: beyond (elem? n) (seq l)) m)) := by
  obtain ⟨hes, u, hu⟩ := cut_line hn
  have hline : line l (seq l) = u ++ n :: (beyond (elem? n) (seq l)).map .elem := by
    rw [← line_append hu, ← hes]
  rcases eq_or_ne m l with rfl | hml
  · rw [update_self, line_append hu, List.map_cons]
    refine Thread.insert (hline ▸ hthread m) (hline ▸ line_nodup m (hfam.nodup m)) ?_
    rw [← hline]
    exact elem_not_mem_line (hx m)
  · rw [update_of_ne hml]
    refine (hthread m).congr (fun a ha => ?_)
    have han : a ≠ n := by
      rintro rfl
      exact line_disjoint hfam hml ha (mem_line.mpr hn)
    have hax : a ≠ .elem x := by
      rintro rfl
      exact elem_not_mem_line (hx m) ha
    simp [slistLinkAfter, han, hax]

/-- STEP: the element after a position of `l` is taken out. -/
theorem unlink_threads (hthread : ∀ m, Thread next (line m (seq m))) (hfam : Family seq)
    (hn : InList l (seq l) n) (hy : beyond (elem? n) (seq l) = y :: ys) :
    ∃ next', slistUnlinkAfter next n = some (next', .elem y) ∧ next' n = ys.head?.map .elem ∧
      ∀ m, Thread next' (line m (update seq l (upTo (elem? n) (seq l) ++ ys) m)) := by
  obtain ⟨hes, u, hu⟩ := cut_line hn
  have hline : line l (seq l) = u ++ n :: .elem y :: ys.map .elem := by
    rw [← List.map_cons, ← hy, ← line_append hu, ← hes]
  have hl : Thread next (u ++ n :: .elem y :: ys.map .elem) := hline ▸ hthread l
  have hnext : next n = some (.elem y) := hl.next_eq
  have hremoved := hl.remove (hline ▸ line_nodup l (hfam.nodup l))
  refine ⟨_, by rw [slistUnlinkAfter, hnext], ?_, fun m => ?_⟩
  · rw [hremoved.next_eq, List.head?_map]
  rcases eq_or_ne m l with rfl | hml
  · rw [update_self, line_append hu]
    exact hremoved
  · rw [update_of_ne hml]
    refine (hthread m).congr (fun a ha => ?_)
    have hout := line_disjoint hfam hml ha
    rw [hline] at hout
    have han : a ≠ n := by
      rintro rfl
      exact hout (by simp)
    have hay : a ≠ .elem y := by
      rintro rfl
      exact hout (by simp)
    simp [han, hay]

/-- RUN: the walk of `slist_previous` ends at the predecessor. -/
theorem slistPrevious_eq {N : Type} [DecidableEq N] {next : N → Option N} {u v : List N} {p x a : N}
    {k : ℕ} (h : Thread next (u ++ p :: x :: v)) (hnodup : (u ++ p :: x :: v).Nodup)
    (ha : (u ++ [p]).head? = some a) : slistPrevious next x (u.length + k + 1) a = .found p := by
  induction u generalizing a with
  | nil =>
    obtain rfl := Option.some.inj ha
    have hnext : next p = some x := h.1
    rw [slistPrevious, if_pos hnext]
  | cons b u ih =>
    obtain rfl := Option.some.inj ha
    obtain ⟨c, hc⟩ : ∃ c, (u ++ [p]).head? = some c := by cases u <;> simp
    have hnext : next b = some c := by
      rw [h.1, ← hc]
      cases u <;> rfl
    have hne : c ≠ x := by
      rintro rfl
      obtain ⟨-, hrest⟩ := List.nodup_cons.mp hnodup
      cases u with
      | nil =>
        obtain rfl := Option.some.inj hc
        simp at hrest
      | cons d u =>
        obtain rfl := Option.some.inj hc
        simp at hrest
    rw [List.length_cons, Nat.add_right_comm u.length 1 k, slistPrevious, hnext,
      if_neg (by simpa using hne)]
    exact ih h.2 (List.nodup_cons.mp hnodup).2 hc

end Threads

/-! ### The invariant -/

structure Rep (w : World L E) (σ : Abs L E) : Prop where
  thread : ∀ l, Thread w.next (line l (σ.seq l))
  books : Books w.owner w.size w.listAlive w.elemAlive σ

section Rep
variable {w : World L E} {σ : Abs L E} {l : L} {x y : E} {ys : List E} {n : Node L E}

theorem init_rep : Rep (init : World L E) Abs.init where
  thread := fun _ => ⟨rfl, trivial⟩
  books :=
    { nodup := fun _ => List.nodup_nil
      owner_head := fun _ => rfl
      owner_elem := fun _ _ => by simp [init, Abs.init]
      size_eq := fun _ => rfl
      list_alive := rfl
      elem_alive := rfl
      living := fun _ _ he => by simp [Abs.init] at he }

/-- A call on `w` that stops exactly when `pre` is false, and otherwise leaves `σ'`. -/
def Refines (w : World L E) (o : Outcome L E) (pre : Prop) (σ' : Abs L E)
    (ret : Option (Option (Node L E))) : Prop :=
  (¬pre ∧ o = .harden w) ∨ (pre ∧ ∃ w', o = .done w' ret ∧ Rep w' σ')

theorem Refines.void {o : Outcome L E} {pre : Prop} {σ' : Abs L E} {ret : Option (Option (Node L E))}
    (h : Refines w o pre σ' ret) : Refines w o.void pre σ' none := by
  rcases h with ⟨hpre, rfl⟩ | ⟨hpre, w', rfl, hrep⟩
  · exact Or.inl ⟨hpre, rfl⟩
  · exact Or.inr ⟨hpre, w', rfl, hrep⟩

variable [DecidableEq L]

theorem Rep.inThisList_iff (h : Rep w σ) (l : L) (pos : Option (Node L E)) :
    inThisList w l pos = true ↔ ∃ n, pos = some n ∧ InList l (σ.seq l) n := by
  cases pos with
  | none => simp [inThisList]
  | some n => simp [inThisList, h.books.owner_iff]

variable [DecidableEq E]

/-- STEP: `unlink_after` at a position with an element behind it. -/
theorem unlinkAfter_rep (h : Rep w σ) (hn : InList l (σ.seq l) n)
    (hy : beyond (elem? n) (σ.seq l) = y :: ys) :
    ∃ w', unlinkAfter w l n = some w' ∧ w'.next n = ys.head?.map .elem ∧
      Rep w' (σ.assign l (upTo (elem? n) (σ.seq l) ++ ys)) := by
  obtain ⟨next', hunlink, hnext, hthread⟩ := unlink_threads h.thread h.books.family hn hy
  have hperm : (σ.seq l).Perm (y :: (upTo (elem? n) (σ.seq l) ++ ys)) := by
    have hes : σ.seq l = upTo (elem? n) (σ.seq l) ++ y :: ys := hy ▸ (cut_line hn).1
    exact (List.Perm.of_eq hes).trans List.perm_middle
  exact ⟨_, by rw [unlinkAfter, hunlink]; rfl, hnext, hthread, h.books.unlink hperm⟩

/-! ### The operations -/

theorem insertAfter_refines (h : Rep w σ) (pos : Option (Node L E)) (hl : σ.listAlive l = true)
    (hx : σ.elemAlive x = true) :
    Refines w (insertAfter w l pos x) (Pre σ (.insertAfter l pos x)) (next σ (.insertAfter l pos x))
      (some (some (.elem x))) := by
  by_cases hfree : σ.Unlinked x
  · have howner := (h.books.unlinked_iff x).mpr hfree
    by_cases hin : inThisList w l pos = true
    · obtain ⟨n, rfl, hn⟩ := (h.inThisList_iff l pos).mp hin
      refine Or.inr ⟨⟨hfree, n, rfl, hn⟩, _, by simp only [insertAfter, howner, hin, ne_eq,
        not_true, if_false, Bool.true_eq_false]; rfl, link_threads h.thread h.books.family hn hfree, ?_⟩
      refine h.books.link hfree ?_ hl hx
      exact List.perm_middle.trans (List.Perm.cons x (List.Perm.of_eq (cut_line hn).1.symm))
    · refine Or.inl ⟨fun hpre => hin ((h.inThisList_iff l pos).mpr hpre.2), ?_⟩
      simp [insertAfter, howner, hin]
  · refine Or.inl ⟨fun hpre => hfree hpre.1, ?_⟩
    have howner := mt (h.books.unlinked_iff x).mp hfree
    simp [insertAfter, howner]

theorem eraseAfter_refines (h : Rep w σ) (l : L) (pos : Option (Node L E)) :
    Refines w (eraseAfter w l pos) (Pre σ (.eraseAfter l pos)) (next σ (.eraseAfter l pos))
      (ret σ (.eraseAfter l pos)) := by
  by_cases hin : inThisList w l pos = true
  · obtain ⟨n, rfl, hn⟩ := (h.inThisList_iff l pos).mp hin
    obtain ⟨hes, u, hu⟩ := cut_line hn
    have hnext : w.next n = ((beyond (elem? n) (σ.seq l)).map Node.elem).head? := by
      have hthread := h.thread l
      rw [hes, line_append hu] at hthread
      exact hthread.next_eq
    cases hy : beyond (elem? n) (σ.seq l) with
    | nil =>
      rw [hy] at hnext
      refine Or.inl ⟨?_, by simp [eraseAfter, hin, hnext]⟩
      rintro ⟨m, hm, -, hne⟩
      obtain rfl := Option.some.inj hm
      exact hne hy
    | cons y ys =>
      rw [hy] at hnext
      obtain ⟨w', hunlink, hnext', hrep⟩ := unlinkAfter_rep h hn hy
      refine Or.inr ⟨⟨n, rfl, hn, by simp [hy]⟩, w', ?_, ?_⟩
      · simp [eraseAfter, hin, hnext, hunlink, hnext', ret, hy]
      · simpa [next, hy] using hrep
  · refine Or.inl ⟨?_, by simp [eraseAfter, hin]⟩
    rintro ⟨n, rfl, hn, -⟩
    exact hin ((h.inThisList_iff l _).mpr ⟨n, rfl, hn⟩)

theorem pushFront_refines (h : Rep w σ) (hl : σ.listAlive l = true) (hx : σ.elemAlive x = true) :
    Refines w (pushFront w l x) (σ.Unlinked x) (next σ (.pushFront l x)) none := by
  have hins := (insertAfter_refines h (some (.head l)) hl hx).void
  have hpre : Pre σ (.insertAfter l (some (.head l)) x) ↔ σ.Unlinked x :=
    and_iff_left ⟨_, rfl, Or.inl rfl⟩
  rw [hpre] at hins
  exact hins

theorem popFront_refines (h : Rep w σ) (l : L) :
    Refines w (popFront w l) (σ.seq l ≠ []) (next σ (.popFront l)) none := by
  have herase := (eraseAfter_refines h l (some (.head l))).void
  have hpre : Pre σ (.eraseAfter l (some (.head l))) ↔ σ.seq l ≠ [] := by
    constructor
    · rintro ⟨n, hn, -, hne⟩
      obtain rfl := Option.some.inj hn
      exact hne
    · intro hne
      exact ⟨_, rfl, Or.inl rfl, hne⟩
  rw [hpre] at herase
  exact herase

omit [DecidableEq L] in
/-- The position just before an element of its list. -/
theorem cut_previous {es : List E} (l : L) (hnodup : es.Nodup) (hx : x ∈ es) :
    ∃ n ys, InList l es n ∧ beyond (elem? n) es = x :: ys ∧ upTo (elem? n) es ++ ys = es.erase x := by
  obtain ⟨as, bs, hes, hnot, -, -⟩ := cut_elem hx
  have herase : es.erase x = as ++ bs := by
    rw [hes, List.erase_append_right _ hnot, List.erase_cons_head]
  rw [herase]
  rcases List.eq_nil_or_concat as with rfl | ⟨cs, c, rfl⟩
  · exact ⟨.head l, bs, Or.inl rfl, hes, rfl⟩
  · rw [List.concat_eq_append, List.append_assoc, List.singleton_append] at hes
    have hc : ∀ a ∈ cs, decide (a ≠ c) = true := by
      intro a ha
      rw [hes, List.nodup_append] at hnodup
      exact decide_eq_true (hnodup.2.2 a ha c (by simp))
    refine ⟨.elem c, bs, Or.inr ⟨c, by simp [hes], rfl⟩, ?_, ?_⟩
    · simp only [hes, beyond, elem?, List.dropWhile_append_of_pos hc]
      simp
    · simp only [hes, upTo, elem?, List.takeWhile_append_of_pos hc]
      simp

section

variable (h : Rep w σ)
include h

theorem erase_refines (l : L) (x : E) :
    Refines w (erase w l x) (x ∈ σ.seq l) (next σ (.erase l x)) none := by
  by_cases hx : x ∈ σ.seq l
  · obtain ⟨n, ys, hn, hy, herase⟩ := cut_previous l (h.books.nodup l) hx
    obtain ⟨hes, u, hu⟩ := cut_line hn
    obtain ⟨w', hunlink, -, hrep⟩ := unlinkAfter_rep h hn hy
    have hline : line l (σ.seq l) = u ++ n :: .elem x :: ys.map .elem := by
      rw [← List.map_cons, ← hy, ← line_append hu, ← hes]
    have hlen : u.length + ys.length + 1 = w.size l := by
      have := congrArg List.length hline
      simp only [line, List.length_cons, List.length_map, List.length_append] at this
      rw [h.books.size_eq]
      omega
    have hhead : (u ++ [n]).head? = some (.head l) := by rw [← hu]; rfl
    have hfound := slistPrevious_eq (k := ys.length + 1) (hline ▸ h.thread l)
      (hline ▸ line_nodup l (h.books.nodup l)) hhead
    rw [← Nat.add_assoc u.length, hlen] at hfound
    refine Or.inr ⟨hx, w', ?_, ?_⟩
    · simp [erase, (h.books.owner_elem x l).mpr hx, hfound, hunlink]
    · rw [herase] at hrep
      exact hrep
  · have howner := mt (h.books.owner_elem x l).mp hx
    exact Or.inl ⟨hx, by simp [erase, howner]⟩

/-- RUN: the loop of `clear` unlinks the elements from the front, and ends. -/
theorem clearLoop_rep {es : List E} (hes : σ.seq l = es) :
    ∃ w', clearLoop l (es.length + 1) w = .done w' none ∧ Rep w' (σ.assign l []) := by
  have hnext : w.next (.head l) = (es.map Node.elem).head? := hes ▸ (h.thread l).1
  induction es generalizing w σ with
  | nil =>
    have hsame : σ.assign l [] = σ := by rw [assign, ← hes, update_eq_self]
    refine ⟨w, by simp [clearLoop, hnext], ?_⟩
    rw [hsame]
    exact h
  | cons e es ih =>
    obtain ⟨w₁, hunlink, -, hrep⟩ := unlinkAfter_rep h (Or.inl rfl) hes
    have hseq : (σ.assign l es).seq l = es := update_self ..
    obtain ⟨w', hloop, hrep'⟩ := ih hrep hseq (hseq ▸ (hrep.thread l).1)
    refine ⟨w', ?_, ?_⟩
    · rw [List.length_cons, clearLoop, if_neg (by simp [hnext]), hunlink]
      exact hloop
    · have hsame : (σ.assign l es).assign l [] = σ.assign l [] := by simp [assign]
      exact hsame ▸ hrep'

theorem clear_refines (l : L) : Refines w (clear w l) True (σ.assign l []) none := by
  obtain ⟨w', hloop, hrep⟩ := clearLoop_rep h (l := l) rfl
  exact Or.inr ⟨trivial, w', by rw [clear, h.books.size_eq, hloop], hrep⟩

theorem destroyList_refines (l : L) :
    Refines w (destroyList w l) True (next σ (.destroyList l)) none := by
  rcases clear_refines h l with ⟨hfalse, -⟩ | ⟨-, w', hclear, hrep⟩
  · exact absurd trivial hfalse
  · refine Or.inr ⟨trivial, _, by rw [destroyList, hclear], ?_⟩
    have hnil : (σ.assign l []).seq l = [] := update_self ..
    exact ⟨hrep.thread, hrep.books.destroyList hnil⟩

theorem destroyElem_refines (x : E) :
    Refines w (destroyElem w x) (σ.Unlinked x) (next σ (.destroyElem x)) none := by
  by_cases hfree : σ.Unlinked x
  · have howner := (h.books.unlinked_iff x).mpr hfree
    refine Or.inr ⟨hfree, _, by rw [destroyElem, if_neg (not_not.mpr howner)], ?_⟩
    exact ⟨h.thread, h.books.destroyElem hfree⟩
  · have howner := mt (h.books.unlinked_iff x).mp hfree
    exact Or.inl ⟨hfree, by simp [destroyElem, howner]⟩

/-- STEP: every call on existing objects refines the `std::forward_list` operation of its name. -/
theorem exec_refines (a : Action L E) (hvalid : valid w a = true) :
    Refines w (exec w a) (Pre σ a) (next σ a) (ret σ a) := by
  cases a with
  | pushFront l value =>
    simp only [valid, h.books.list_alive, h.books.elem_alive, Bool.and_eq_true] at hvalid
    exact pushFront_refines h hvalid.1 hvalid.2
  | popFront l => exact popFront_refines h l
  | insertAfter l pos value =>
    simp only [valid, h.books.list_alive, h.books.elem_alive, Bool.and_eq_true] at hvalid
    exact insertAfter_refines h pos hvalid.1.1 hvalid.2
  | eraseAfter l pos => exact eraseAfter_refines h l pos
  | erase l value => exact erase_refines h l value
  | clear l => exact clear_refines h l
  | destroyList l => exact destroyList_refines h l
  | destroyElem value => exact destroyElem_refines h value

end

/-! ### Every run -/

/-- The lists of `w` are well-formed chains through the sequences of `σ`. -/
structure WellFormed (w : World L E) (σ : Abs L E) : Prop where
  visits : ∀ l, traverse w l = some ((σ.seq l).map .elem)
  size_eq : ∀ l, w.size l = (σ.seq l).length
  owner_iff : ∀ e l, w.owner (.elem e) = some l ↔ e ∈ σ.seq l
  once : ∀ l, (σ.seq l).Nodup
  one_list : ∀ e l m, e ∈ σ.seq l → e ∈ σ.seq m → l = m
  -- only existing elements are linked, and only into existing lists
  living : ∀ l e, e ∈ σ.seq l → w.listAlive l = true ∧ w.elemAlive e = true

omit [DecidableEq L] [DecidableEq E] in
theorem Rep.wellFormed (h : Rep w σ) : WellFormed w σ where
  visits := fun l => by
    have htrail := trail_thread (h.thread l).2
    rw [List.length_map, ← h.books.size_eq, ← (h.thread l).1] at htrail
    exact htrail
  size_eq := h.books.size_eq
  owner_iff := h.books.owner_elem
  once := h.books.nodup
  one_list := h.books.family.disjoint
  living := h.books.list_alive ▸ h.books.elem_alive ▸ h.books.living

/-- The contract of a program's lists, when its calls so far gave `σ`. -/
structure Contract (w : World L E) (σ : Abs L E) : Prop where
  wellFormed : WellFormed w σ
  stops : ∀ a, valid w a = true → ¬Pre σ a → exec w a = .harden w
  returns : ∀ a, valid w a = true → Pre σ a →
    ∃ w', exec w a = .done w' (ret σ a) ∧ WellFormed w' (next σ a)

theorem Rep.contract (h : Rep w σ) : Contract w σ where
  wellFormed := h.wellFormed
  stops := fun a hvalid hpre => by
    rcases exec_refines h a hvalid with ⟨-, hstop⟩ | ⟨hpre', -⟩
    · exact hstop
    · exact absurd hpre' hpre
  returns := fun a hvalid hpre => by
    rcases exec_refines h a hvalid with ⟨hpre', -⟩ | ⟨-, w', hdone, hrep⟩
    · exact absurd hpre hpre'
    · exact ⟨w', hdone, hrep.wellFormed⟩

/-- STEP: a call that returns leaves the sequences `std::forward_list` would leave. -/
theorem step_rep {w' : World L E} {a : Action L E} (h : Rep w σ) (hstep : step w a = some w') :
    Rep w' (next σ a) := by
  rw [step] at hstep
  split at hstep
  · next hvalid =>
    rcases exec_refines h a hvalid with ⟨-, hstop⟩ | ⟨-, w'', hdone, hrep⟩
    · rw [hstop] at hstep
      cases hstep
    · rw [hdone] at hstep
      exact Option.some.inj hstep ▸ hrep
  · cases hstep

/-- RUN: along every run the lists represent the sequences of the same calls. -/
theorem run_rep {acts : List (Action L E)} {w' : World L E} (h : Rep w σ)
    (hrun : run step w acts = some w') : Rep w' (acts.foldl next σ) :=
  run_rel next Rep (fun _ _ _ _ => step_rep) h hrun

end Rep

/-- CORRECT: the lists of every program refine the sequences its calls would give
    `std::forward_list`s. -/
theorem forward_lists_refine_sequences [DecidableEq L] [DecidableEq E] (acts : List (Action L E))
    (w : World L E) (hrun : run step init acts = some w) :
    Contract w (acts.foldl next Abs.init) :=
  (run_rep init_rep hrun).contract

local instance neZero_two : NeZero 2 := ⟨by decide⟩

/-- Elements linked behind others and behind the head, one erased from the middle of its list. -/
def sampleActs : List (Action (Fin 2) (Fin 4)) :=
  [.pushFront 0 0, .insertAfter 0 (some (.elem 0)) 1, .insertAfter 0 (some (.elem 1)) 2,
    .insertAfter 1 (some (.head 1)) 3, .erase 0 1, .eraseAfter 1 (some (.head 1)), .destroyElem 3,
    .destroyList 1]

theorem forward_lists_refine_sequences_sample : ∃ w, run step init sampleActs = some w ∧
    traverse w 0 = some [.elem 0, .elem 2] ∧ Contract w (sampleActs.foldl next Abs.init) := by
  have houtcome : (run step init sampleActs).map (fun w => traverse w 0) =
      some (some [.elem 0, .elem 2]) := by
    decide +kernel
  obtain ⟨w, hrun, hw⟩ := Option.map_eq_some_iff.mp houtcome
  exact ⟨w, hrun, hw, forward_lists_refine_sequences sampleActs w hrun⟩

end Metl.IntrusiveForwardList
