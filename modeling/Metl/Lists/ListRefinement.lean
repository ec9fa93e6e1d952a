import Metl.Lists.IntrusiveList

/-! The lists of an `intrusive_list` program refine plain sequences, changed as `std::list` changes
    its own.

        σ.seq l = [a, b, c]        head l ⇄ a ⇄ b ⇄ c ⇄ head l
        insert (at b) x            [a, x, b, c]
        erase (at b)               [a, c], returns the position of c

    An invariant ties the links to the sequences: every list is a ring through its sequence, owners
    say which list holds an element, and sizes are lengths. Each operation either stops with its
    precondition false or keeps the invariant. -/

namespace Metl.IntrusiveList

open Metl.Schemes Function

variable {L E : Type}

/-! ### The abstract lists -/

namespace Abs

/-- The documented preconditions. -/
def Pre (σ : Abs L E) : Action L E → Prop
  | .pushFront _ value => σ.Unlinked value
  | .pushBack _ value => σ.Unlinked value
  | .popFront l => σ.seq l ≠ []
  | .popBack l => σ.seq l ≠ []
  | .insert l pos value => σ.Unlinked value ∧ ∃ n, pos = some n ∧ InList l (σ.seq l) n
  | .erase l pos => ∃ e ∈ σ.seq l, pos = some (.elem e)
  | .eraseValue l value => value ∈ σ.seq l
  | .splice l pos other it =>
    (∃ n, pos = some n ∧ InList l (σ.seq l) n) ∧ ∃ e ∈ σ.seq other, it = some (.elem e)
  | .clear _ => True
  | .destroyList _ => True
  | .destroyElem value => σ.Unlinked value

variable [DecidableEq L] [DecidableEq E]

def insertBefore (x : E) (pos : Option E) (es : List E) : List E :=
  match pos with
  | none => es ++ [x]
  | some e => es.takeWhile (fun a => a ≠ e) ++ x :: es.dropWhile (fun a => a ≠ e)

/-- The element after `e`, if any. -/
def following (e : E) (es : List E) : Option E := (es.dropWhile fun a => a ≠ e).tail.head?

/-- What the `std::list` operation of the same name leaves. -/
def next (σ : Abs L E) : Action L E → Abs L E
  | .pushFront l value => σ.assign l (value :: σ.seq l)
  | .pushBack l value => σ.assign l (σ.seq l ++ [value])
  | .popFront l => σ.assign l (σ.seq l).tail
  | .popBack l => σ.assign l (σ.seq l).dropLast
  | .insert l pos value => σ.assign l (insertBefore value (pos.bind elem?) (σ.seq l))
  | .erase l pos =>
    match pos.bind elem? with
    | none => σ
    | some e => σ.assign l ((σ.seq l).erase e)
  | .eraseValue l value => σ.assign l ((σ.seq l).erase value)
  | .splice l pos other it =>
    match it.bind elem? with
    | none => σ
    | some e =>
      -- an element is not moved to before itself
      if pos = it then σ
      else
        let σ' := σ.assign other ((σ.seq other).erase e)
        σ'.assign l (insertBefore e (pos.bind elem?) (σ'.seq l))
  | .clear l => σ.assign l []
  | .destroyList l => { σ.assign l [] with listAlive := update σ.listAlive l false }
  | .destroyElem value => { σ with elemAlive := update σ.elemAlive value false }

/-- The iterator the call returns. -/
def ret (σ : Abs L E) : Action L E → Option (Node L E)
  | .insert _ _ value => some (.elem value)
  | .erase l pos => (pos.bind elem?).map fun e => nodeAt l (following e (σ.seq l))
  | _ => none

end Abs

open Abs

/-! ### Sequences cut at a position -/

section Cut
variable [DecidableEq E] {e x : E} {es as bs : List E}

/-- A sequence cut at an element: what is left without it, and what comes after it. -/
theorem cut_erase (h : e ∈ es) : ∃ as bs, es = as ++ e :: bs ∧ e ∉ as ∧ es.erase e = as ++ bs ∧
    following e es = bs.head? := by
  obtain ⟨as, bs, hes, hnot, -, hdrop⟩ := cut_elem h
  refine ⟨as, bs, hes, hnot, ?_, by rw [following, hdrop]; rfl⟩
  rw [hes, List.erase_append_right _ hnot, List.erase_cons_head]

/-- A sequence cut at a position: what an insertion there gives. -/
theorem cut_insert {l : L} {n : Node L E} (h : InList l es n) (x : E) : ∃ as bs v, es = as ++ bs ∧
    bs.map Node.elem ++ [.head l] = n :: v ∧ insertBefore x (elem? n) es = as ++ x :: bs := by
  rcases h with rfl | ⟨e, he, rfl⟩
  · exact ⟨es, [], [], by simp, rfl, rfl⟩
  · obtain ⟨as, bs, hes, -, htake, hdrop⟩ := cut_elem he
    refine ⟨as, e :: bs, bs.map Node.elem ++ [.head l], hes, rfl, ?_⟩
    simp only [elem?, insertBefore, htake, hdrop]

/-- Moving an element to before its successor changes nothing. -/
theorem insertBefore_following (h : es.Nodup) (he : e ∈ es) :
    insertBefore e (following e es) (es.erase e) = es := by
  obtain ⟨as, bs, hes, -, herase, hfollowing⟩ := cut_erase he
  rw [herase, hfollowing, hes]
  cases bs with
  | nil => simp [insertBefore]
  | cons b bs =>
    have hb : b ∉ as := by
      rw [hes, List.nodup_append] at h
      exact fun hmem => h.2.2 b hmem b (by simp) rfl
    have hall : ∀ a ∈ as, decide (a ≠ b) = true := by
      intro a ha
      exact decide_eq_true (ne_of_mem_of_not_mem ha hb)
    simp only [List.head?_cons, insertBefore, List.takeWhile_append_of_pos hall,
      List.dropWhile_append_of_pos hall]
    simp

end Cut

/-! ### Rings -/

/-- The nodes around list `l`, from its head back to its head. -/
def ring (l : L) (es : List E) : List (Node L E) := .head l :: (es.map .elem ++ [.head l])

section Rings
variable {s : Links (Node L E)} {seq : L → List E} {l m : L} {e x : E} {es as bs : List E}
  {n q : Node L E} {v : List (Node L E)}

theorem mem_ring : n ∈ ring l es ↔ InList l es n := by
  constructor
  · intro h
    simp only [ring, List.mem_cons, List.mem_append, List.mem_map, List.mem_nil_iff, or_false] at h
    rcases h with h | ⟨e, he, rfl⟩ | h
    · exact Or.inl h
    · exact Or.inr ⟨e, he, rfl⟩
    · exact Or.inl h
  · rintro (rfl | ⟨e, he, rfl⟩)
    · simp [ring]
    · simp [ring, he]

theorem ring_simple (l : L) (h : es.Nodup) : Simple (ring l es) := by
  have hmap : (es.map (Node.elem (L := L))).Nodup := h.map fun a b hab => by injection hab
  constructor
  · rw [ring, List.dropLast_cons_of_ne_nil (by simp), List.dropLast_concat, List.nodup_cons]
    exact ⟨by simp, hmap⟩
  · rw [ring, List.tail_cons, List.nodup_append]
    refine ⟨hmap, by simp, ?_⟩
    simp

theorem Family.ring_disjoint (h : Family seq) (hml : m ≠ l) (hn : n ∈ ring m (seq m)) :
    n ∉ ring l (seq l) := by
  rw [mem_ring] at hn ⊢
  rintro (rfl | ⟨e, he, rfl⟩)
  · rcases hn with hn | ⟨e, -, hn⟩
    · exact hml (by injection hn with hn; exact hn.symm)
    · cases hn
  · rcases hn with hn | ⟨e', he', hn⟩
    · cases hn
    · injection hn with hn
      exact hml (h.disjoint e m l (hn ▸ he') he)

theorem ring_next (h : Walk s (ring l es)) : s.next (.head l) = some (nodeAt l es.head?) := by
  cases es with
  | nil => exact (List.isChain_cons_cons.mp h).1.1
  | cons e es => exact (List.isChain_cons_cons.mp h).1.1

theorem ring_prev (h : Walk s (ring l es)) : s.prev (.head l) = some (nodeAt l es.getLast?) := by
  have hback : (ring l es).reverse = ring l es.reverse := by simp [ring]
  have hnext := ring_next (hback ▸ h.reverse)
  rwa [List.head?_reverse] at hnext

/-- A ring cut in two: the neighbours at the cut. -/
theorem ring_cut (l : L) (as : List E) : ∃ u p, .head l :: as.map Node.elem = u ++ [p] := by
  have hne : (.head l :: as.map Node.elem : List (Node L E)) ≠ [] := by simp
  exact ⟨_, _, (List.dropLast_append_getLast hne).symm⟩

/-- Links written at nodes of one ring (and at a free node) leave the other rings alone. -/
theorem Family.frame {s' : Links (Node L E)} (hfam : Family seq) (hml : m ≠ l)
    (hwalk : Walk s (ring m (seq m))) (hx : ∀ k, k ≠ l → x ∉ seq k)
    (hnext : ∀ n, n ∉ ring l (seq l) → n ≠ .elem x → s'.next n = s.next n)
    (hprev : ∀ n, n ∉ ring l (seq l) → n ≠ .elem x → s'.prev n = s.prev n) :
    Walk s' (ring m (seq m)) := by
  have houtside : ∀ n ∈ ring m (seq m), n ∉ ring l (seq l) ∧ n ≠ .elem x := by
    intro n hn
    refine ⟨hfam.ring_disjoint hml hn, ?_⟩
    rintro rfl
    rcases mem_ring.mp hn with hn | ⟨e, he, hn⟩
    · cases hn
    · injection hn with hn
      exact hx m hml (hn ▸ he)
  refine hwalk.congr ?_ ?_
  · intro n hn
    obtain ⟨h₁, h₂⟩ := houtside n (List.dropLast_subset _ hn)
    exact hnext n h₁ h₂
  · intro n hn
    obtain ⟨h₁, h₂⟩ := houtside n (List.mem_of_mem_tail hn)
    exact hprev n h₁ h₂

variable [DecidableEq L] [DecidableEq E]

/-- STEP: `dlist_link_before` puts a free element into the ring of `q`, before `q`. -/
theorem link_rings (hwalk : ∀ m, Walk s (ring m (seq m))) (hfam : Family seq)
    (hcut : seq l = as ++ bs) (hq : bs.map .elem ++ [.head l] = q :: v) (hx : ∀ m, x ∉ seq m) :
    ∃ s', dlistLinkBefore s q (.elem x) = some s' ∧
      ∀ m, Walk s' (ring m (update seq l (as ++ x :: bs) m)) := by
  obtain ⟨u, p, hp⟩ := ring_cut l as
  have hring : ring l (seq l) = u ++ p :: q :: v := by
    rw [hcut, ring, List.map_append, List.append_assoc, hq, ← List.cons_append, hp,
      List.append_assoc, List.singleton_append]
  have hring' : ring l (as ++ x :: bs) = u ++ p :: .elem x :: q :: v := by
    rw [ring, List.map_append, List.map_cons, List.append_assoc, List.cons_append, hq,
      ← List.cons_append, hp, List.append_assoc, List.singleton_append]
  have hl : Walk s (u ++ p :: q :: v) := hring ▸ hwalk l
  have hprev : s.prev q = some p := (walk_cut.mp hl).2.1.2
  refine ⟨_, by rw [dlistLinkBefore, hprev], ?_⟩
  intro m
  rcases eq_or_ne m l with rfl | hml
  · rw [update_self, hring']
    refine hl.insert (hring ▸ ring_simple m (hfam.nodup m)) ?_ rfl rfl
    rw [← hring, mem_ring]
    rintro (h | ⟨e, he, h⟩)
    · cases h
    · injection h with h
      exact hx m (h ▸ he)
  · rw [update_of_ne hml]
    refine hfam.frame hml (hwalk m) (fun k _ => hx k) ?_ ?_
    · intro n hn hnx
      have hnp : n ≠ p := by
        rintro rfl
        exact hn (by rw [hring]; simp)
      simp [hnp, hnx]
    · intro n hn hnx
      have hnq : n ≠ q := by
        rintro rfl
        exact hn (by rw [hring]; simp)
      simp [hnq, hnx]

/-- STEP: `dlist_unlink` takes an element out of its ring. -/
theorem unlink_rings (hwalk : ∀ m, Walk s (ring m (seq m))) (hfam : Family seq)
    (hcut : seq l = as ++ x :: bs) : s.next (.elem x) = some (nodeAt l bs.head?) ∧
    ∃ s', dlistUnlink s (.elem x) = some s' ∧ ∀ m, Walk s' (ring m (update seq l (as ++ bs) m)) := by
  obtain ⟨u, p, hp⟩ := ring_cut l as
  obtain ⟨q, v, hq, hqb⟩ : ∃ q v, bs.map .elem ++ [.head l] = q :: v ∧ q = nodeAt l bs.head? := by
    cases bs with
    | nil => exact ⟨_, _, rfl, rfl⟩
    | cons b bs => exact ⟨_, _, rfl, rfl⟩
  have hring : ring l (seq l) = u ++ p :: .elem x :: q :: v := by
    rw [hcut, ring, List.map_append, List.map_cons, List.append_assoc, List.cons_append, hq,
      ← List.cons_append, hp, List.append_assoc, List.singleton_append]
  have hring' : ring l (as ++ bs) = u ++ p :: q :: v := by
    rw [ring, List.map_append, List.append_assoc, hq, ← List.cons_append, hp,
      List.append_assoc, List.singleton_append]
  have hl : Walk s (u ++ p :: .elem x :: q :: v) := hring ▸ hwalk l
  obtain ⟨-, hpx, hright⟩ := walk_cut.mp hl
  obtain ⟨hxq, -⟩ := List.isChain_cons_cons.mp hright
  refine ⟨by rw [hxq.1, hqb], _, by rw [dlistUnlink, hpx.2, hxq.1], ?_⟩
  have hmem : x ∈ seq l := by simp [hcut]
  intro m
  rcases eq_or_ne m l with rfl | hml
  · rw [update_self, hring']
    exact hl.remove (hring ▸ ring_simple m (hfam.nodup m)) rfl rfl
  · rw [update_of_ne hml]
    refine hfam.frame (x := x) hml (hwalk m) (fun k hk hxk => hk (hfam.disjoint x k l hxk hmem)) ?_ ?_
    · intro n hn hnx
      have hnp : n ≠ p := by
        rintro rfl
        exact hn (by rw [hring]; simp)
      simp [hnp, hnx]
    · intro n hn hnx
      have hnq : n ≠ q := by
        rintro rfl
        exact hn (by rw [hring]; simp)
      simp [hnq, hnx]

end Rings

/-! ### The invariant -/

structure Rep (w : World L E) (σ : Abs L E) : Prop where
  walk : ∀ l, Walk w.links (ring l (σ.seq l))
  nodup : ∀ l, (σ.seq l).Nodup
  owner_head : ∀ l, w.owner (.head l) = some l
  owner_elem : ∀ e l, w.owner (.elem e) = some l ↔ e ∈ σ.seq l
  size_eq : ∀ l, w.size l = (σ.seq l).length
  list_alive : w.listAlive = σ.listAlive
  elem_alive : w.elemAlive = σ.elemAlive
  -- no link leaves the objects that exist
  living : ∀ l e, e ∈ σ.seq l → σ.listAlive l = true ∧ σ.elemAlive e = true

section Rep
variable {w : World L E} {σ : Abs L E} {l other : L} {e x : E} {n : Node L E}

theorem init_rep : Rep (init : World L E) Abs.init where
  walk := fun _ => List.isChain_cons_cons.mpr ⟨⟨rfl, rfl⟩, List.IsChain.singleton _⟩
  nodup := fun _ => List.nodup_nil
  owner_head := fun _ => rfl
  owner_elem := fun _ _ => by simp [init, Abs.init]
  size_eq := fun _ => rfl
  list_alive := rfl
  elem_alive := rfl
  living := fun _ _ he => by simp [Abs.init] at he

theorem Rep.books (h : Rep w σ) : Books w.owner w.size w.listAlive w.elemAlive σ where
  nodup := h.nodup
  owner_head := h.owner_head
  owner_elem := h.owner_elem
  size_eq := h.size_eq
  list_alive := h.list_alive
  elem_alive := h.elem_alive
  living := h.living

theorem Rep.of_books (hwalk : ∀ l, Walk w.links (ring l (σ.seq l)))
    (h : Books w.owner w.size w.listAlive w.elemAlive σ) : Rep w σ where
  walk := hwalk
  nodup := h.nodup
  owner_head := h.owner_head
  owner_elem := h.owner_elem
  size_eq := h.size_eq
  list_alive := h.list_alive
  elem_alive := h.elem_alive
  living := h.living

theorem Rep.family (h : Rep w σ) : Family σ.seq := h.books.family

/-- A call on `w` that stops exactly when `pre` is false, and otherwise leaves `σ'`. -/
def Refines (w : World L E) (o : Outcome L E) (pre : Prop) (σ' : Abs L E)
    (ret : Option (Node L E)) : Prop :=
  (¬ pre ∧ o = .harden w) ∨ (pre ∧ ∃ w', o = .done w' ret ∧ Rep w' σ')

theorem Refines.void {o : Outcome L E} {pre : Prop} {σ' : Abs L E} {ret : Option (Node L E)}
    (h : Refines w o pre σ' ret) : Refines w o.void pre σ' none := by
  rcases h with ⟨hpre, rfl⟩ | ⟨hpre, w', rfl, hrep⟩
  · exact Or.inl ⟨hpre, rfl⟩
  · exact Or.inr ⟨hpre, w', rfl, hrep⟩

variable [DecidableEq L]

theorem Rep.inThisList_iff (h : Rep w σ) (l : L) (pos : Option (Node L E)) :
    inThisList w l pos = true ↔ ∃ n, pos = some n ∧ InList l (σ.seq l) n := by
  cases pos with
  | none => simp [inThisList]
  | some n => simp [inThisList, h.books.owner_iff]

variable [DecidableEq E]

section

variable (h : Rep w σ)
include h

/-- STEP: linking a free element in at a position of `l`. -/
theorem Rep.link (hfree : σ.Unlinked x) (hn : InList l (σ.seq l) n) (hl : σ.listAlive l = true)
    (hx : σ.elemAlive x = true) : ∃ links, dlistLinkBefore w.links n (.elem x) = some links ∧ Rep { w with
        links := links
        owner := update w.owner (.elem x) (some l)
        size := update w.size l (w.size l + 1) }
        (σ.assign l (insertBefore x (elem? n) (σ.seq l))) := by
  obtain ⟨as, bs, v, hes, hv, hinsert⟩ := cut_insert hn x
  obtain ⟨links, hlinks, hwalk⟩ := link_rings h.walk h.family hes hv hfree
  have hperm : (as ++ x :: bs).Perm (x :: σ.seq l) := by
    rw [hes]
    exact List.perm_middle
  refine ⟨links, hlinks, ?_⟩
  rw [hinsert]
  exact Rep.of_books hwalk (h.books.link hfree hperm hl hx)

/-- STEP: unlinking an element of `l`. -/
theorem Rep.unlink (he : e ∈ σ.seq l) : w.links.next (.elem e) = some (nodeAt l (following e (σ.seq l))) ∧
    ∃ links, dlistUnlink w.links (.elem e) = some links ∧ Rep { w with
        links := links
        owner := update w.owner (.elem e) none
        size := update w.size l (w.size l - 1) }
        (σ.assign l ((σ.seq l).erase e)) := by
  obtain ⟨as, bs, hes, -, herase, hfollowing⟩ := cut_erase he
  obtain ⟨hnext, links, hlinks, hwalk⟩ := unlink_rings h.walk h.family hes
  rw [hfollowing]
  refine ⟨hnext, links, hlinks, ?_⟩
  rw [← herase] at hwalk
  exact Rep.of_books hwalk (h.books.unlink (List.perm_cons_erase he))

/-! ### The operations -/

theorem insert_refines (pos : Option (Node L E)) (hl : σ.listAlive l = true) (hx : σ.elemAlive x = true) :
    Refines w (insert w l pos x) (σ.Unlinked x ∧ ∃ n, pos = some n ∧ InList l (σ.seq l) n)
      (σ.assign l (insertBefore x (pos.bind elem?) (σ.seq l))) (some (.elem x)) := by
  by_cases hfree : σ.Unlinked x
  · have howner := (h.books.unlinked_iff x).mpr hfree
    by_cases hin : inThisList w l pos = true
    · obtain ⟨n, rfl, hn⟩ := (h.inThisList_iff l pos).mp hin
      obtain ⟨links, hlinks, hrep⟩ := h.link hfree hn hl hx
      refine Or.inr ⟨⟨hfree, n, rfl, hn⟩, _, ?_, hrep⟩
      simp [insert, howner, hin, hlinks]
    · refine Or.inl ⟨fun hpre => hin ((h.inThisList_iff l pos).mpr hpre.2), ?_⟩
      simp [insert, howner, hin]
  · refine Or.inl ⟨fun hpre => hfree hpre.1, ?_⟩
    have howner := mt (h.books.unlinked_iff x).mp hfree
    simp [insert, howner]

theorem pushFront_refines (hl : σ.listAlive l = true) (hx : σ.elemAlive x = true) :
    Refines w (pushFront w l x) (σ.Unlinked x) (σ.assign l (x :: σ.seq l)) none := by
  rw [pushFront]
  have hbegin := ring_next (h.walk l)
  have hins := (insert_refines h (w.links.next (.head l)) hl hx).void
  have hpre : (∃ n, w.links.next (.head l) = some n ∧ InList l (σ.seq l) n) := by
    refine ⟨_, hbegin, ?_⟩
    cases hseq : σ.seq l with
    | nil => exact Or.inl rfl
    | cons e es => exact Or.inr ⟨e, List.mem_cons_self, rfl⟩
  have hseq : insertBefore x ((w.links.next (.head l)).bind elem?) (σ.seq l) = x :: σ.seq l := by
    rw [hbegin]
    cases hseq : σ.seq l with
    | nil => rfl
    | cons e es => simp [nodeAt, elem?, insertBefore]
  rw [hseq] at hins
  simpa only [hpre, and_true] using hins

theorem pushBack_refines (hl : σ.listAlive l = true) (hx : σ.elemAlive x = true) :
    Refines w (pushBack w l x) (σ.Unlinked x) (σ.assign l (σ.seq l ++ [x])) none := by
  have hins := (insert_refines h (some (.head l)) hl hx).void
  have hpre : ∃ n, some (Node.head l) = some n ∧ InList l (σ.seq l) n := ⟨_, rfl, Or.inl rfl⟩
  simp only [hpre, and_true] at hins
  exact hins

theorem unlink_rep (he : e ∈ σ.seq l) : w.links.next (.elem e) = some (nodeAt l (following e (σ.seq l))) ∧
    ∃ w', unlink w l (.elem e) = some w' ∧ Rep w' (σ.assign l ((σ.seq l).erase e)) := by
  obtain ⟨hnext, links, hlinks, hrep⟩ := h.unlink he
  exact ⟨hnext, _, by rw [unlink, hlinks]; rfl, hrep⟩

theorem erase_refines (l : L) (pos : Option (Node L E)) :
    Refines w (erase w l pos) (∃ e ∈ σ.seq l, pos = some (.elem e)) (σ.next (.erase l pos))
      (σ.ret (.erase l pos)) := by
  by_cases hin : inThisList w l pos = true
  · obtain ⟨n, rfl, rfl | ⟨e, he, rfl⟩⟩ := (h.inThisList_iff l pos).mp hin
    · exact Or.inl ⟨by simp, by simp [erase, hin]⟩
    · obtain ⟨hnext, w', hunlink, hrep⟩ := unlink_rep h he
      refine Or.inr ⟨⟨e, he, rfl⟩, w', ?_, hrep⟩
      simp [erase, hin, hunlink, hnext, ret, elem?]
  · refine Or.inl ⟨?_, by simp [erase, hin]⟩
    rintro ⟨e, he, rfl⟩
    exact hin ((h.inThisList_iff l _).mpr ⟨_, rfl, Or.inr ⟨e, he, rfl⟩⟩)

theorem eraseValue_refines (l : L) (x : E) :
    Refines w (eraseValue w l x) (x ∈ σ.seq l) (σ.assign l ((σ.seq l).erase x)) none := by
  by_cases hx : x ∈ σ.seq l
  · obtain ⟨-, w', hunlink, hrep⟩ := unlink_rep h hx
    refine Or.inr ⟨hx, w', ?_, hrep⟩
    simp [eraseValue, (h.owner_elem x l).mpr hx, hunlink]
  · refine Or.inl ⟨hx, ?_⟩
    have howner := mt (h.owner_elem x l).mp hx
    simp [eraseValue, howner]

/-- `pop_front` and `pop_back` erase at one end: `o` is the element there. -/
theorem pop_refines {o : Option E} {es : List E} (hnil : σ.seq l = [] → o = none)
    (hcons : σ.seq l ≠ [] → ∃ e ∈ σ.seq l, o = some e ∧ (σ.seq l).erase e = es) :
    Refines w (erase w l (some (nodeAt l o))).void (σ.seq l ≠ []) (σ.assign l es) none := by
  have herase := (erase_refines h l (some (nodeAt l o))).void
  by_cases hseq : σ.seq l = []
  · have hpre : ¬ ∃ e ∈ σ.seq l, some (nodeAt l o) = some (.elem e) := by simp [hseq]
    rcases herase with ⟨-, heq⟩ | ⟨hfalse, -⟩
    · exact Or.inl ⟨by simp [hseq], heq⟩
    · exact absurd hfalse hpre
  · obtain ⟨e, he, rfl, hes⟩ := hcons hseq
    rcases herase with ⟨hfalse, -⟩ | ⟨-, w', heq, hrep⟩
    · exact absurd ⟨e, he, rfl⟩ hfalse
    · exact Or.inr ⟨hseq, w', heq, hes ▸ hrep⟩

theorem popFront_refines (l : L) :
    Refines w (popFront w l) (σ.seq l ≠ []) (σ.assign l (σ.seq l).tail) none := by
  rw [popFront, ring_next (h.walk l)]
  refine pop_refines h (fun hnil => by rw [hnil]; rfl) fun hne => ?_
  cases hseq : σ.seq l with
  | nil => exact absurd hseq hne
  | cons e es => exact ⟨e, by simp, rfl, by simp⟩

theorem popBack_refines (l : L) :
    Refines w (popBack w l) (σ.seq l ≠ []) (σ.assign l (σ.seq l).dropLast) none := by
  rw [popBack, ring_prev (h.walk l)]
  refine pop_refines h (fun hnil => by rw [hnil]; rfl) fun hne => ?_
  obtain ⟨es, e, hseq⟩ : ∃ es e, σ.seq l = es ++ [e] := ⟨_, _, (List.dropLast_append_getLast hne).symm⟩
  have hnodup := h.nodup l
  rw [hseq, List.nodup_append] at hnodup
  have hnot : e ∉ es := fun hmem => hnodup.2.2 e hmem e (by simp) rfl
  rw [hseq]
  exact ⟨e, by simp, by simp, by rw [List.erase_append_right _ hnot]; simp⟩

/-- STEP: `splice` past its checks, for an element that is not already there. -/
theorem splice_move (hn : InList l (σ.seq l) n) (he : e ∈ σ.seq other) (hne : n ≠ .elem e)
    (hnext : some n ≠ w.links.next (.elem e)) (hl : σ.listAlive l = true) :
    ∃ w', splice w l (some n) other (some (.elem e)) = .done w' none ∧
      Rep w' (σ.next (.splice l (some n) other (some (.elem e)))) := by
  obtain ⟨-, links, hunlink, hrep⟩ := h.unlink he
  have hfree := (hrep.books.unlinked_iff e).mp (update_self ..)
  have hn' : InList l ((σ.assign other ((σ.seq other).erase e)).seq l) n := by
    refine (hrep.books.owner_iff l n).mp ?_
    simpa [hne] using (h.books.owner_iff l n).mpr hn
  obtain ⟨links', hlink, hrep'⟩ := hrep.link hfree hn' hl (h.living other e he).2
  have hpos : inThisList w l (some n) = true := (h.inThisList_iff l _).mpr ⟨n, rfl, hn⟩
  have hit : inThisList w other (some (.elem e)) = true :=
    (h.inThisList_iff other _).mpr ⟨_, rfl, Or.inr ⟨e, he, rfl⟩⟩
  have hspec : σ.next (.splice l (some n) other (some (.elem e))) =
      (σ.assign other ((σ.seq other).erase e)).assign l
        (insertBefore e (elem? n) ((σ.assign other ((σ.seq other).erase e)).seq l)) := by
    simp [Abs.next, elem?, hne]
  rw [hspec]
  refine ⟨_, ?_, hrep'⟩
  simp only [splice, hpos, hit, hne, hnext, hunlink, hlink, Option.bind_some, or_self, if_false,
    Bool.true_eq_false, Option.some.injEq, reduceCtorEq]
  rcases eq_or_ne other l with rfl | hother
  · have howner := (h.owner_elem e other).mpr he
    have hsize : w.size other - 1 + 1 = w.size other := by
      have hpos := List.length_pos_of_mem he
      rw [← h.size_eq] at hpos
      omega
    simp [hsize, ← howner]
  · simp [hother, update_of_ne (Ne.symm hother)]

theorem splice_refines (pos : Option (Node L E)) (other : L) (it : Option (Node L E))
    (hl : σ.listAlive l = true) : Refines w (splice w l pos other it) (σ.Pre (.splice l pos other it))
      (σ.next (.splice l pos other it)) none := by
  by_cases hpos : inThisList w l pos = true
  · by_cases hit : inThisList w other it = true
    · obtain ⟨n, rfl, hn⟩ := (h.inThisList_iff l pos).mp hpos
      obtain ⟨m, rfl, rfl | ⟨e, he, rfl⟩⟩ := (h.inThisList_iff other it).mp hit
      · exact Or.inl ⟨by simp [Pre], by simp [splice, hpos, hit]⟩
      refine Or.inr ⟨⟨⟨n, rfl, hn⟩, e, he, rfl⟩, ?_⟩
      by_cases hne : n = .elem e
      · subst hne
        exact ⟨w, by simp [splice, hpos, hit], by simpa [Abs.next, elem?] using h⟩
      by_cases hnext : some n = w.links.next (.elem e)
      · -- the position after `e` is a position of `other`, so both lists are one
        have hafter := (h.unlink he).1
        have hnode : n = nodeAt other (following e (σ.seq other)) := Option.some.inj (hnext.trans hafter)
        have hsame : l = other := by
          have hown : w.owner n = some other := by
            rw [h.books.owner_iff, hnode]
            obtain ⟨as, bs, hes, -, -, hfollowing⟩ := cut_erase he
            rw [hfollowing, hes]
            cases bs with
            | nil => exact Or.inl rfl
            | cons b bs => exact Or.inr ⟨b, by simp, rfl⟩
          exact Option.some.inj (((h.books.owner_iff l n).mpr hn).symm.trans hown)
        subst hsame
        refine ⟨w, by simp [splice, hpos, hit, ← hnext], ?_⟩
        have helem : elem? n = following e (σ.seq l) := by
          rw [hnode]
          cases following e (σ.seq l) <;> rfl
        have hspec : σ.next (.splice l (some n) l (some (.elem e))) = σ := by
          have hmove := insertBefore_following (h.nodup l) he
          simp [Abs.next, hne, helem, assign, hmove]
        rw [hspec]
        exact h
      · exact splice_move h hn he hne hnext hl
    · refine Or.inl ⟨?_, by simp [splice, hpos, hit]⟩
      rintro ⟨-, e, he, rfl⟩
      exact hit ((h.inThisList_iff other _).mpr ⟨_, rfl, Or.inr ⟨e, he, rfl⟩⟩)
  · refine Or.inl ⟨fun hpre => hpos ((h.inThisList_iff l pos).mpr hpre.1), ?_⟩
    simp [splice, hpos]

/-- RUN: the loop of `clear` unlinks the elements from the front, and ends. -/
theorem clearLoop_rep {es : List E} (hes : σ.seq l = es) :
    ∃ w', clearLoop l (es.length + 1) w = .done w' none ∧ Rep w' (σ.assign l []) := by
  induction es generalizing w σ with
  | nil =>
    have hnext := ring_next (h.walk l)
    rw [hes] at hnext
    refine ⟨w, by simp [clearLoop, hnext, nodeAt], ?_⟩
    have hsame : σ.assign l [] = σ := by
      rw [assign, ← hes, update_eq_self]
    rw [hsame]
    exact h
  | cons e es ih =>
    have hnext := ring_next (h.walk l)
    obtain ⟨-, w', hunlink, hrep⟩ := unlink_rep h (show e ∈ σ.seq l by simp [hes])
    obtain ⟨w'', hloop, hrep'⟩ := ih hrep (by simp [assign, hes])
    refine ⟨w'', ?_, ?_⟩
    · rw [List.length_cons, clearLoop, hnext, hes]
      simpa [nodeAt, hunlink] using hloop
    · have hsame : (σ.assign l ((σ.seq l).erase e)).assign l [] = σ.assign l [] := by
        simp [assign]
      exact hsame ▸ hrep'

theorem clear_refines (l : L) : Refines w (clear w l) True (σ.assign l []) none := by
  obtain ⟨w', hloop, hrep⟩ := clearLoop_rep h (l := l) rfl
  exact Or.inr ⟨trivial, w', by rw [clear, h.size_eq, hloop], hrep⟩

theorem destroyList_refines (l : L) :
    Refines w (destroyList w l) True (σ.next (.destroyList l)) none := by
  rcases clear_refines h l with ⟨hfalse, -⟩ | ⟨-, w', hclear, hrep⟩
  · exact absurd trivial hfalse
  refine Or.inr ⟨trivial, _, by rw [destroyList, hclear], ?_⟩
  exact Rep.of_books hrep.walk (hrep.books.destroyList (by simp [assign]))

theorem destroyElem_refines (x : E) :
    Refines w (destroyElem w x) (σ.Unlinked x) (σ.next (.destroyElem x)) none := by
  by_cases hfree : σ.Unlinked x
  · have howner := (h.books.unlinked_iff x).mpr hfree
    refine Or.inr ⟨hfree, _, by rw [destroyElem, if_neg (not_not.mpr howner)], ?_⟩
    exact Rep.of_books h.walk (h.books.destroyElem hfree)
  · have howner := mt (h.books.unlinked_iff x).mp hfree
    exact Or.inl ⟨hfree, by simp [destroyElem, howner]⟩

/-- STEP: every call on existing objects refines the `std::list` operation of its name. -/
theorem exec_refines (a : Action L E) (hvalid : valid w a = true) :
    Refines w (exec w a) (σ.Pre a) (σ.next a) (σ.ret a) := by
  cases a with
  | pushFront l value =>
    simp only [valid, h.list_alive, h.elem_alive, Bool.and_eq_true] at hvalid
    exact pushFront_refines h hvalid.1 hvalid.2
  | pushBack l value =>
    simp only [valid, h.list_alive, h.elem_alive, Bool.and_eq_true] at hvalid
    exact pushBack_refines h hvalid.1 hvalid.2
  | popFront l => exact popFront_refines h l
  | popBack l => exact popBack_refines h l
  | insert l pos value =>
    simp only [valid, h.list_alive, h.elem_alive, Bool.and_eq_true] at hvalid
    exact insert_refines h pos hvalid.1.1 hvalid.2
  | erase l pos => exact erase_refines h l pos
  | eraseValue l value => exact eraseValue_refines h l value
  | splice l pos other it =>
    simp only [valid, h.list_alive, Bool.and_eq_true] at hvalid
    exact splice_refines h pos other it hvalid.1.1.1
  | clear l => exact clear_refines h l
  | destroyList l => exact destroyList_refines h l
  | destroyElem value => exact destroyElem_refines h value

end

/-! ### Every run -/

/-- The lists of `w` are well-formed rings through the sequences of `σ`. -/
structure WellFormed (w : World L E) (σ : Abs L E) : Prop where
  forward : ∀ l, traverse w w.links.next l = some ((σ.seq l).map .elem)
  backward : ∀ l, traverse w w.links.prev l = some ((σ.seq l).map .elem).reverse
  size_eq : ∀ l, w.size l = (σ.seq l).length
  owner_iff : ∀ e l, w.owner (.elem e) = some l ↔ e ∈ σ.seq l
  once : ∀ l, (σ.seq l).Nodup
  one_list : ∀ e l m, e ∈ σ.seq l → e ∈ σ.seq m → l = m
  -- only existing elements are linked, and only into existing lists
  living : ∀ l e, e ∈ σ.seq l → w.listAlive l = true ∧ w.elemAlive e = true

theorem Rep.wellFormed (h : Rep w σ) : WellFormed w σ where
  forward := fun l => by
    have hring := follow_ring (h.walk l) (by simp)
    rw [traverse, h.size_eq]
    simpa using hring.1
  backward := fun l => by
    have hring := follow_ring (h.walk l) (by simp)
    rw [traverse, h.size_eq]
    simpa using hring.2
  size_eq := h.size_eq
  owner_iff := h.owner_elem
  once := h.nodup
  one_list := h.family.disjoint
  living := h.list_alive ▸ h.elem_alive ▸ h.living

/-- The contract of a program's lists, when its calls so far gave `σ`. -/
structure Contract (w : World L E) (σ : Abs L E) : Prop where
  wellFormed : WellFormed w σ
  stops : ∀ a, valid w a = true → ¬ σ.Pre a → exec w a = .harden w
  returns : ∀ a, valid w a = true → σ.Pre a →
    ∃ w', exec w a = .done w' (σ.ret a) ∧ WellFormed w' (σ.next a)

theorem Rep.contract (h : Rep w σ) : Contract w σ where
  wellFormed := h.wellFormed
  stops := fun a hvalid hpre => by
    rcases exec_refines h a hvalid with ⟨-, hstop⟩ | ⟨hpre', -⟩
    · exact hstop
    · exact absurd hpre' hpre
  returns := fun a hvalid hpre => by
    rcases exec_refines h a hvalid with ⟨hpre', -⟩ | ⟨-, w', hdone, hrep⟩
    · exact absurd hpre hpre'
    · exact ⟨w', hdone, hrep.wellFormed⟩

/-- STEP: a call that returns leaves the sequences `std::list` would leave. -/
theorem step_rep {w' : World L E} {a : Action L E} (h : Rep w σ) (hstep : step w a = some w') :
    Rep w' (σ.next a) := by
  rw [step] at hstep
  split at hstep
  · rename_i hvalid
    rcases exec_refines h a hvalid with ⟨-, hstop⟩ | ⟨-, w'', hdone, hrep⟩
    · rw [hstop] at hstep
      cases hstep
    · rw [hdone] at hstep
      exact Option.some.inj hstep ▸ hrep
  · cases hstep

/-- RUN: along every run the lists represent the sequences of the same calls. -/
theorem run_rep {acts : List (Action L E)} {w' : World L E} (h : Rep w σ)
    (hrun : run step w acts = some w') : Rep w' (acts.foldl Abs.next σ) :=
  run_rel Abs.next Rep (fun _ _ _ _ => step_rep) h hrun

end Rep

/-- CORRECT: the lists of every program refine the sequences its calls would give `std::list`s. -/
theorem lists_refine_sequences [DecidableEq L] [DecidableEq E] (acts : List (Action L E))
    (w : World L E) (hrun : run step init acts = some w) :
    Contract w (acts.foldl Abs.next Abs.init) :=
  (run_rep init_rep hrun).contract

/-- An element moves to the other list, next to the end there, and then within that list. -/
def sampleActs : List (Action (Fin 2) (Fin 3)) :=
  [.pushBack 0 0, .pushFront 0 1, .insert 1 (some (.head 1)) 2,
    .splice 1 (some (.elem 2)) 0 (some (.elem 1)), .splice 1 (some (.head 1)) 1 (some (.elem 1)),
    .erase 1 (some (.elem 2)), .destroyElem 2, .destroyList 0]

theorem lists_refine_sequences_sample : ∃ w, run step init sampleActs = some w ∧
    traverse w w.links.next 1 = some [.elem 1] ∧
    Contract w (sampleActs.foldl Abs.next Abs.init) := by
  have houtcome : (run step init sampleActs).map (fun w => traverse w w.links.next 1) =
      some (some [.elem 1]) := by
    decide +kernel
  obtain ⟨w, hrun, hw⟩ := Option.map_eq_some_iff.mp houtcome
  exact ⟨w, hrun, hw, lists_refine_sequences sampleActs w hrun⟩

end Metl.IntrusiveList
