import Mathlib

/-! Which list holds which element.

    The intrusive lists of every kind keep the same books: a node records the list it is in, a list
    its length. The sequences themselves are abstract; here is what linking and unlinking one element
    does to the books, whatever it does to the links.

        seq l = [a, b]          owner a = owner b = l      size l = 2
        seq m = []              owner c = none             size m = 0 -/

namespace Metl.IntrusiveList
open Function

variable {L E : Type}

/-- A link object: the head inside list `l`, or the hook inside element `e`. -/
inductive Node (L E : Type) where
  | head (l : L)
  | elem (e : E)
  deriving DecidableEq, Repr

/-- What the program's lists hold, and which of its objects exist. -/
structure Abs (L E : Type) where
  seq : L → List E
  listAlive : L → Bool
  elemAlive : E → Bool

namespace Abs

def init : Abs L E := ⟨fun _ => [], fun _ => true, fun _ => true⟩

/-- The element a position names; `none` for an end. -/
def elem? : Node L E → Option E
  | .head _ => none
  | .elem e => some e

@[simp] theorem elem?_elem (e : E) : elem? (.elem e : Node L E) = some e := rfl

/-- The position of an element of `l`, or the end of `l`. -/
def nodeAt (l : L) : Option E → Node L E
  | none => .head l
  | some e => .elem e

/-- `n` is an element of the sequence `es` of `l`, or its end. -/
def InList (l : L) (es : List E) (n : Node L E) : Prop := n = .head l ∨ ∃ e ∈ es, n = .elem e

def Unlinked (σ : Abs L E) (value : E) : Prop := ∀ l, value ∉ σ.seq l

variable [DecidableEq L]

def assign (σ : Abs L E) (l : L) (es : List E) : Abs L E :=
  { σ with seq := update σ.seq l es }

theorem mem_assign {σ : Abs L E} {l m : L} {es : List E} {e : E} :
    e ∈ (σ.assign l es).seq m ↔ if m = l then e ∈ es else e ∈ σ.seq m := by
  rcases eq_or_ne m l with rfl | hm
  · simp [assign]
  · simp [assign, hm]

end Abs

open Abs

/-- A sequence cut at an element. -/
theorem cut_elem [DecidableEq E] {e : E} {es : List E} (h : e ∈ es) :
    ∃ as bs, es = as ++ e :: bs ∧ e ∉ as ∧
      es.takeWhile (fun a => a ≠ e) = as ∧ es.dropWhile (fun a => a ≠ e) = e :: bs := by
  induction es with
  | nil => simp at h
  | cons a es ih =>
    rcases eq_or_ne a e with rfl | ha
    · exact ⟨[], es, by simp⟩
    · have hmem : e ∈ es := (List.mem_cons.mp h).resolve_left (Ne.symm ha)
      obtain ⟨as, bs, hes, hnot, htake, hdrop⟩ := ih hmem
      refine ⟨a :: as, bs, by rw [hes]; rfl, by simp [hnot, Ne.symm ha], ?_, ?_⟩
      · rw [List.takeWhile_cons_of_pos (by simpa using ha), htake]
      · rw [List.dropWhile_cons_of_pos (by simpa using ha), hdrop]

/-- The sequences share no element. -/
structure Family (seq : L → List E) : Prop where
  nodup : ∀ l, (seq l).Nodup
  disjoint : ∀ e l m, e ∈ seq l → e ∈ seq m → l = m

/-- The books agree with the sequences. -/
structure Books (owner : Node L E → Option L) (size : L → ℕ) (listAlive : L → Bool)
    (elemAlive : E → Bool) (σ : Abs L E) : Prop where
  nodup : ∀ l, (σ.seq l).Nodup
  owner_head : ∀ l, owner (.head l) = some l
  owner_elem : ∀ e l, owner (.elem e) = some l ↔ e ∈ σ.seq l
  size_eq : ∀ l, size l = (σ.seq l).length
  list_alive : listAlive = σ.listAlive
  elem_alive : elemAlive = σ.elemAlive
  -- no link leaves the objects that exist
  living : ∀ l e, e ∈ σ.seq l → σ.listAlive l = true ∧ σ.elemAlive e = true

namespace Books

variable {owner : Node L E → Option L} {size : L → ℕ} {listAlive : L → Bool} {elemAlive : E → Bool}
  {σ : Abs L E} {l : L} {x : E} {es : List E}

section

variable (h : Books owner size listAlive elemAlive σ)
include h

theorem family : Family σ.seq where
  nodup := h.nodup
  disjoint := fun e l m hl hm => by
    have hl := (h.owner_elem e l).mpr hl
    have hm := (h.owner_elem e m).mpr hm
    exact Option.some.inj (hl.symm.trans hm)

theorem unlinked_iff (value : E) : owner (.elem value) = none ↔ σ.Unlinked value := by
  constructor
  · intro hnone l hmem
    have hl := (h.owner_elem value l).mpr hmem
    rw [hnone] at hl
    cases hl
  · intro hfree
    cases howner : owner (.elem value) with
    | none => rfl
    | some l => exact absurd ((h.owner_elem value l).mp howner) (hfree l)

theorem owner_iff (l : L) (n : Node L E) : owner n = some l ↔ InList l (σ.seq l) n := by
  cases n with
  | head m =>
    rw [h.owner_head]
    constructor
    · intro hm
      exact Or.inl (congrArg Node.head (Option.some.inj hm))
    · rintro (hm | ⟨e, -, hm⟩)
      · injection hm with hm
        rw [hm]
      · cases hm
  | elem e =>
    rw [h.owner_elem]
    constructor
    · intro he
      exact Or.inr ⟨e, he, rfl⟩
    · rintro (he | ⟨e', he', he⟩)
      · cases he
      · injection he with he
        exact he ▸ he'

end

variable [DecidableEq L] [DecidableEq E]

section

variable (h : Books owner size listAlive elemAlive σ)
include h

/-- One list changed by one element `x`: what has to be checked. -/
theorem rewrite {o : Option L} (hnodup : es.Nodup)
    (howner : ∀ e m, (if e = x then o else owner (.elem e)) = some m ↔ e ∈ (σ.assign l es).seq m)
    (hliving : ∀ e ∈ es, σ.listAlive l = true ∧ σ.elemAlive e = true) :
    Books (update owner (.elem x) o) (update size l es.length) listAlive elemAlive (σ.assign l es) where
  nodup := fun m => by
    rcases eq_or_ne m l with rfl | hm
    · simpa [assign] using hnodup
    · simpa [assign, hm] using h.nodup m
  owner_head := fun m => by simpa using h.owner_head m
  owner_elem := fun e m => by
    rw [← howner e m]
    rcases eq_or_ne e x with rfl | he
    · simp
    · simp [he]
  size_eq := fun m => by
    rcases eq_or_ne m l with rfl | hm
    · simp [assign]
    · simpa [assign, hm] using h.size_eq m
  list_alive := h.list_alive
  elem_alive := h.elem_alive
  living := fun m e he => by
    rw [mem_assign] at he
    split at he
    · next hm =>
      subst hm
      exact hliving e he
    · exact h.living m e he

/-- STEP: a free element is linked into `l`. -/
theorem link (hfree : σ.Unlinked x) (hperm : es.Perm (x :: σ.seq l)) (hl : σ.listAlive l = true)
    (hx : σ.elemAlive x = true) :
    Books (update owner (.elem x) (some l)) (update size l (size l + 1)) listAlive
      elemAlive (σ.assign l es) := by
  have hsize : size l + 1 = es.length := by
    rw [h.size_eq, hperm.length_eq, List.length_cons]
  rw [hsize]
  refine h.rewrite ?_ ?_ ?_
  · exact hperm.nodup_iff.mpr (List.nodup_cons.mpr ⟨hfree l, h.nodup l⟩)
  · intro e m
    rw [mem_assign, hperm.mem_iff, List.mem_cons, ← h.owner_elem, ← h.owner_elem]
    rcases eq_or_ne e x with rfl | he
    · have hnone := (h.unlinked_iff e).mpr hfree
      by_cases hm : m = l
      · simp [hm]
      · simp [hm, Ne.symm hm, hnone]
    · by_cases hm : m = l
      · simp [he, hm]
      · simp [he, hm]
  · intro e he
    rcases List.mem_cons.mp (hperm.mem_iff.mp he) with rfl | he
    · exact ⟨hl, hx⟩
    · exact h.living l e he

/-- STEP: an element is taken out of `l`. -/
theorem unlink (hperm : (σ.seq l).Perm (x :: es)) :
    Books (update owner (.elem x) none) (update size l (size l - 1)) listAlive
      elemAlive (σ.assign l es) := by
  have hsize : size l - 1 = es.length := by
    rw [h.size_eq, hperm.length_eq, List.length_cons, Nat.add_sub_cancel]
  have hnodup := List.nodup_cons.mp (hperm.nodup_iff.mp (h.nodup l))
  have hx : x ∈ σ.seq l := hperm.mem_iff.mpr List.mem_cons_self
  rw [hsize]
  refine h.rewrite hnodup.2 ?_ ?_
  · intro e m
    rw [mem_assign]
    rcases eq_or_ne e x with rfl | he
    · have hout : ∀ k, k ≠ l → e ∉ σ.seq k := fun k hk hmem => hk (h.family.disjoint e k l hmem hx)
      by_cases hm : m = l
      · simp [hm, hnodup.1]
      · simp [hm, hout m hm]
    · rcases eq_or_ne m l with rfl | hm
      · simp [he, h.owner_elem, hperm.mem_iff]
      · simp [he, hm, h.owner_elem]
  · intro e he
    exact h.living l e (hperm.mem_iff.mpr (List.mem_cons_of_mem x he))

end

omit [DecidableEq E] in
/-- A list that holds nothing may go. -/
theorem destroyList (h : Books owner size listAlive elemAlive σ) (hnil : σ.seq l = []) :
    Books owner size (update listAlive l false) elemAlive
      { σ with listAlive := update σ.listAlive l false } :=
  { h with
    list_alive := by rw [h.list_alive]
    living := fun m e he => by
      have hml : m ≠ l := by
        rintro rfl
        rw [hnil] at he
        cases he
      obtain ⟨hm, he⟩ := h.living m e he
      exact ⟨by simpa [hml] using hm, he⟩ }

omit [DecidableEq L] in
/-- An element that is in no list may go. -/
theorem destroyElem (h : Books owner size listAlive elemAlive σ) (hfree : σ.Unlinked x) :
    Books owner size listAlive (update elemAlive x false)
      { σ with elemAlive := update σ.elemAlive x false } :=
  { h with
    elem_alive := by rw [h.elem_alive]
    living := fun l e he => by
      have hex : e ≠ x := by
        rintro rfl
        exact hfree l he
      obtain ⟨hl, he⟩ := h.living l e he
      exact ⟨hl, by simpa [hex] using he⟩ }

end Books

end Metl.IntrusiveList
