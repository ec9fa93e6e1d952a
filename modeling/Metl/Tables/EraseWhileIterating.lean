import Metl.Tables.Churn

/-! Erasing from an unordered table while a loop iterates over it.

        it          ▼
        slots   [ a ] [ † ] [ b ] [ ] [ c ] …        p(b)?   erase b, it = next     (b becomes †)
                                                             else ++it

    The iterator stands at an element or at the end, and an erase touches one slot only. So the loop
    asks `p` about the elements that were there at the start, one after the other in the order of their
    slots, and the others stay where they are. -/

namespace Metl.Tables
open Metl.Schemes
open Metl.StaticUnorderedMap (SlotState)

/-! ### The loops -/

/-- What a loop uses and a caller sees of a table of type `τ` with elements of type `α`. A position is
    a slot. -/
structure Traversable (τ α κ : Type) where
  /-- `end()` -/
  finish : ℕ
  slotState : τ → ℕ → SlotState
  size : τ → ℕ
  find : τ → κ → Option ℕ
  /-- where an iterator built at a slot stands -/
  skip : τ → ℕ → ℕ
  element : τ → ℕ → Option α
  key : α → κ
  eraseAt : τ → ℕ → Option (τ × ℕ)
  eraseKey : τ → κ → τ × Bool

/-- In the middle of a loop: the table, the iterator, the state of the predicate, the number of elements
    erased, and for every call of the predicate the slot, the element and the answer. -/
structure Tour (τ α σ : Type) where
  table : τ
  index : ℕ
  state : σ
  erased : ℕ
  calls : List (ℕ × α × Bool)

variable {τ τ' α α' κ σ : Type}

/-- `it = c.erase(it)`. -/
def Traversable.byIterator (T : Traversable τ α κ) (table : τ) (index : ℕ) (_ : α) : Option (τ × ℕ) :=
  T.eraseAt table index

/-- The loops. The predicate may look at the table and has a state of its own; `remove` says how the
    loop erases an element and gets to the next. -/
def Traversable.loop (T : Traversable τ α κ) (p : τ → α → σ → Bool × σ)
    (remove : τ → ℕ → α → Option (τ × ℕ)) : ℕ → Tour τ α σ → Option (Tour τ α σ)
  | 0, t => if t.index = T.finish then some t else none
  | fuel + 1, t =>
    if t.index = T.finish then some t
    else
      (T.element t.table t.index).bind fun e =>
        let answer := p t.table e t.state
        let calls := t.calls ++ [(t.index, e, answer.1)]
        if answer.1 then
          (remove t.table t.index e).bind fun r =>
            T.loop p remove fuel ⟨r.1, r.2, answer.2, t.erased + 1, calls⟩
        else T.loop p remove fuel ⟨t.table, T.skip t.table (t.index + 1), answer.2, t.erased, calls⟩

/-- From `begin()`; every slot is visited once at most. -/
def Traversable.start (T : Traversable τ α κ) (p : τ → α → σ → Bool × σ)
    (remove : τ → ℕ → α → Option (τ × ℕ)) (table : τ) (s : σ) : Option (Tour τ α σ) :=
  T.loop p remove T.finish ⟨table, T.skip table 0, s, 0, []⟩

/-- `erase_if(c, p)`, which returns the number of elements erased. -/
def Traversable.eraseIf (T : Traversable τ α κ) (p : τ → α → σ → Bool × σ) (table : τ) (s : σ) :
    Option (Tour τ α σ × ℕ) :=
  (T.start p T.byIterator table s).map fun t => (t, t.erased)

/-- The elements of the slots below `n`, each with its slot. -/
def Traversable.occupants (T : Traversable τ α κ) (table : τ) (n : ℕ) : List (ℕ × α) :=
  contents n fun i => (T.element table i).map (Prod.mk i)

/-- `f` carries the table `T` to the table `T'`, and its elements by `g`. -/
structure Traversable.Image (T : Traversable τ α κ) (T' : Traversable τ' α' κ) (f : τ → τ')
    (g : α → α') : Prop where
  finish : T'.finish = T.finish
  slotState : ∀ table i, T'.slotState (f table) i = T.slotState table i
  size : ∀ table, T'.size (f table) = T.size table
  find : ∀ table k, T'.find (f table) k = T.find table k
  skip : ∀ table i, T'.skip (f table) i = T.skip table i
  element : ∀ table i, T'.element (f table) i = (T.element table i).map g
  key : ∀ e, T'.key (g e) = T.key e
  eraseAt : ∀ table i, T'.eraseAt (f table) i = (T.eraseAt table i).map fun r => (f r.1, r.2)
  eraseKey : ∀ table k, T'.eraseKey (f table) k = (f (T.eraseKey table k).1, (T.eraseKey table k).2)

/-- A tour with the table and the elements carried over. -/
def Tour.image (f : τ → τ') (g : α → α') (t : Tour τ α σ) : Tour τ' α' σ :=
  ⟨f t.table, t.index, t.state, t.erased, t.calls.map fun x => (x.1, g x.2.1, x.2.2)⟩

section Images
variable {T : Traversable τ α κ} {T' : Traversable τ' α' κ} {f : τ → τ'} {g : α → α'}

theorem Traversable.Image.byIterator (h : T.Image T' f g) (table : τ) (i : ℕ) (e : α) :
    T'.byIterator (f table) i (g e) = (T.byIterator table i e).map fun r => (f r.1, r.2) :=
  h.eraseAt table i

variable {remove : τ → ℕ → α → Option (τ × ℕ)} {remove' : τ' → ℕ → α' → Option (τ' × ℕ)}
  {p : τ' → α' → σ → Bool × σ} {table : τ}

section

variable (h : T.Image T' f g)
include h

/-- RUN: a loop over the image is the image of the loop. -/
theorem Traversable.Image.loop (p : τ' → α' → σ → Bool × σ)
    (hremove : ∀ table i e, remove' (f table) i (g e) = (remove table i e).map fun r => (f r.1, r.2))
    (fuel : ℕ) (t : Tour τ α σ) : T'.loop p remove' fuel (t.image f g) =
      (T.loop (fun table e => p (f table) (g e)) remove fuel t).map (Tour.image f g) := by
  induction fuel generalizing t with
  | zero =>
    simp only [Traversable.loop, Tour.image, h.finish]
    split <;> rfl
  | succ fuel ih =>
    simp only [Traversable.loop]
    have hindex : (t.image f g).index = T'.finish ↔ t.index = T.finish := by rw [h.finish]; rfl
    by_cases hend : t.index = T.finish
    · rw [if_pos hend, if_pos (hindex.mpr hend)]
      rfl
    · rw [if_neg hend, if_neg (fun hx => hend (hindex.mp hx))]
      have helement : T'.element (t.image f g).table (t.image f g).index =
          (T.element t.table t.index).map g := h.element _ _
      rw [helement]
      cases T.element t.table t.index with
      | none => rfl
      | some e =>
        simp only [Option.map_some, Option.bind_some]
        have hcalls : ∀ b, (t.image f g).calls ++ [((t.image f g).index, g e, b)] =
            (t.calls ++ [(t.index, e, b)]).map fun x => (x.1, g x.2.1, x.2.2) := by
          intro b
          simp [Tour.image]
        change (if (p (f t.table) (g e) t.state).1 = true then _ else _) = _
        split
        · next hyes =>
          change (remove' (f t.table) t.index (g e)).bind _ = _
          rw [hremove]
          cases remove t.table t.index e with
          | none => rfl
          | some r =>
            simp only [Option.map_some, Option.bind_some]
            rw [← ih]
            exact congrArg (fun l => T'.loop p remove' fuel ⟨f r.1, r.2, _, t.erased + 1, l⟩) (hcalls _)
        · rw [← ih]
          change T'.loop p remove' fuel ⟨f t.table, T'.skip (f t.table) (t.index + 1), _, t.erased, _⟩ = _
          rw [h.skip]
          exact congrArg (fun l => T'.loop p remove' fuel
            ⟨f t.table, T.skip t.table (t.index + 1), _, t.erased, l⟩) (hcalls _)

theorem Traversable.Image.start (p : τ' → α' → σ → Bool × σ)
    (hremove : ∀ table i e, remove' (f table) i (g e) = (remove table i e).map fun r => (f r.1, r.2))
    (table : τ) (s : σ) : T'.start p remove' (f table) s =
      (T.start (fun table e => p (f table) (g e)) remove table s).map (Tour.image f g) := by
  rw [Traversable.start, Traversable.start, ← h.loop p hremove, h.finish, h.skip]
  rfl

theorem Traversable.Image.occupants (table : τ) (n : ℕ) :
    T'.occupants (f table) n = (T.occupants table n).map fun x => (x.1, g x.2) := by
  rw [Traversable.occupants, Traversable.occupants, ← contents_map]
  refine contents_congr ?_
  intro i _
  rw [h.element]
  cases T.element table i <;> rfl

end

end Images

end Metl.Tables

namespace Metl.StaticUnorderedMap
open Metl.Schemes Metl.Tables

variable {ι K V σ : Type} [DecidableEq ι] {w : ℕ} {c : Cfg K V w} {m m' table : Map K V w}

/-! ### Over a map -/

def traversable (c : Cfg K V w) : Traversable (Map K V w) (K × V) K where
  finish := c.bucketCount
  slotState := Map.state
  size := Map.size
  find := findExistingIndex c
  skip := skipToOccupied c
  element := Map.storage
  key := Prod.fst
  eraseAt := eraseAt c
  eraseKey := eraseKey c

/-- `erase_if` with a predicate that only looks at the element is the loop above. -/
theorem eraseIfLoop_traversable (pred : K × V → Bool) (fuel index erased : ℕ)
    (calls : List (ℕ × (K × V) × Bool)) : eraseIfLoop c pred fuel m index erased =
      ((traversable c).loop (fun _ e _ => (pred e, ())) (traversable c).byIterator fuel
        ⟨m, index, (), erased, calls⟩).map fun t => (t.table, t.erased) := by
  induction fuel generalizing m index erased calls with
  | zero =>
    simp only [eraseIfLoop, Traversable.loop]
    change _ = Option.map _ (if index = c.bucketCount then _ else _)
    split <;> rfl
  | succ fuel ih =>
    simp only [eraseIfLoop, Traversable.loop]
    change (if index = c.bucketCount then _ else _) =
      Option.map _ (if index = c.bucketCount then _ else _)
    split
    · rfl
    · change (m.storage index).bind _ = Option.map _ ((m.storage index).bind _)
      cases m.storage index with
      | none => rfl
      | some e =>
        simp only [Option.bind_some]
        split
        · change (eraseAt c m index).bind _ = Option.map _ ((eraseAt c m index).bind _)
          cases eraseAt c m index with
          | none => rfl
          | some r => exact ih _ _ _
        · exact ih _ _ _

theorem eraseIf_traversable (pred : K × V → Bool) : eraseIf c m pred =
      ((traversable c).eraseIf (fun _ e (_ : Unit) => (pred e, ())) m ()).map
        fun r => (r.1.table, r.2) := by
  rw [eraseIf, eraseIfLoop_traversable pred _ _ _ [], Traversable.eraseIf, Option.map_map]
  rfl

/-! ### Erasing one element -/

variable {i : ℕ}

/-- A stored key is found in its slot. -/
theorem Inv.find_stored (hinv : Inv c m) {e : K × V} (hi : i < c.bucketCount)
    (he : m.storage i = some e) : findExistingIndex c m e.1 = some i := by
  cases hfind : findExistingIndex c m e.1 with
  | none =>
    have habsent := hinv.find_none hfind e (mem_contents.mpr ⟨i, hi, he⟩)
    have hself : m.keyEqual e.1 e.1 = true := hinv.lawful.equiv.refl e.1
    rw [hself] at habsent
    cases habsent
  | some j =>
    obtain ⟨hj, e', he', hequal⟩ := find_some hfind
    rcases eq_or_ne j i with rfl | hji
    · rfl
    · -- another slot with an equal key: the keys of two elements differ
      obtain ⟨-, -, hapart⟩ := hinv.split hi he
      have hmem : e' ∈ others c m i := mem_contents.mpr ⟨j, hj, by simpa [hji] using he'⟩
      have hfalse := hinv.lawful.apart_symm (hapart e' hmem)
      rw [hequal] at hfalse
      cases hfalse

/-- The loop has asked about the elements below the iterator, and what it has erased are tombstones. -/
structure Touring (c : Cfg K V w) (p : Map K V w → K × V → σ → Bool × σ) (m : Map K V w)
    (t : Tour (Map K V w) (K × V) σ) : Prop where
  inv : Inv c t.table
  equal : t.table.keyEqual = m.keyEqual
  le : t.index ≤ c.bucketCount
  stands : t.index < c.bucketCount → t.table.state t.index = .occupied
  asked : t.calls.map (fun x => (x.1, x.2.1)) = (traversable c).occupants m t.index
  answered : ∀ x ∈ t.calls, ∃ table s, (p table x.2.1 s).1 = x.2.2
  counted : t.erased = (t.calls.filter fun x => x.2.2).length
  size : t.table.size + t.erased = m.size
  removed : ∀ i e, (i, e, true) ∈ t.calls → slot t.table i = (.tombstone, none)
  rest : ∀ i < c.bucketCount, (∀ e, (i, e, true) ∉ t.calls) → slot t.table i = slot m i

section Loop
variable {p : Map K V w → K × V → σ → Bool × σ} {t : Tour (Map K V w) (K × V) σ}

variable {i : ℕ} {e : K × V}

section

variable (ht : Touring c p m t)
include ht

/-- Only elements below the iterator have been asked about. -/
theorem Touring.mem_calls {b : Bool} (hx : (i, e, b) ∈ t.calls) : i < t.index ∧ m.storage i = some e := by
  have hmem : (i, e) ∈ (traversable c).occupants m t.index := by
    rw [← ht.asked]
    exact List.mem_map.mpr ⟨_, hx, rfl⟩
  obtain ⟨j, hj, hsome⟩ := mem_contents.mp hmem
  obtain ⟨e', he', heq⟩ := Option.map_eq_some_iff.mp hsome
  cases heq
  exact ⟨hj, he'⟩

/-- From the iterator on nothing has changed. -/
theorem Touring.ahead (hle : t.index ≤ i) (hi : i < c.bucketCount) : slot t.table i = slot m i := by
  refine ht.rest i hi ?_
  intro e hx
  have := (ht.mem_calls hx).1
  omega

theorem Touring.storage_ahead (hle : t.index ≤ i) (hi : i < c.bucketCount) :
    t.table.storage i = m.storage i :=
  congrArg Prod.snd (ht.ahead hle hi)

/-- The elements up to the next position: the one here and those before it. -/
theorem Touring.occupants_next (hlt : t.index < c.bucketCount) (he : t.table.storage t.index = some e) :
    (traversable c).occupants m (skipToOccupied c t.table (t.index + 1)) =
      (traversable c).occupants m t.index ++ [(t.index, e)] := by
  obtain ⟨hle, hbound, hnone, -⟩ := ht.inv.skip (show t.index + 1 ≤ c.bucketCount from hlt)
  have hhere : m.storage t.index = some e := by rw [← ht.storage_ahead (Nat.le_refl _) hlt, he]
  have hgap : ∀ n, t.index + 1 ≤ n → n ≤ skipToOccupied c t.table (t.index + 1) →
      (traversable c).occupants m n = (traversable c).occupants m (t.index + 1) := by
    intro n hn
    induction n, hn using Nat.le_induction with
    | base => intro _; rfl
    | succ n hn ih =>
      intro hlast
      have hempty : m.storage n = none := by
        rw [← ht.storage_ahead (by omega) (by omega)]
        exact hnone n hn (by omega)
      rw [← ih (by omega), Traversable.occupants, contents_succ]
      simp [traversable, hempty, Traversable.occupants]
  rw [hgap _ hle (Nat.le_refl _), Traversable.occupants, contents_succ]
  simp [traversable, hhere, Traversable.occupants]

/-- STEP: the answer is no, and the iterator goes on. -/
theorem Touring.pass (hlt : t.index < c.bucketCount) (he : t.table.storage t.index = some e)
    (hp : (p t.table e t.state).1 = false) (s : σ) :
    Touring c p m ⟨t.table, skipToOccupied c t.table (t.index + 1), s, t.erased,
      t.calls ++ [(t.index, e, false)]⟩ := by
  obtain ⟨-, hbound, -, hstands⟩ := ht.inv.skip (show t.index + 1 ≤ c.bucketCount from hlt)
  refine ⟨ht.inv, ht.equal, hbound, hstands, ?_, ?_, ?_, ht.size, ?_, ?_⟩
  · rw [ht.occupants_next hlt he, List.map_append, ht.asked]
    rfl
  · intro x hx
    rcases List.mem_append.mp hx with hx | hx
    · exact ht.answered x hx
    · rw [List.mem_singleton.mp hx]
      exact ⟨t.table, t.state, hp⟩
  · simp [ht.counted]
  · intro i e' hx
    exact ht.removed i e' (by simpa using hx)
  · intro i hi hnot
    exact ht.rest i hi fun e' hx => hnot e' (List.mem_append_left _ hx)

/-- STEP: the answer is yes, and the element is erased. -/
theorem Touring.erase (hlt : t.index < c.bucketCount) (he : t.table.storage t.index = some e)
    (hp : (p t.table e t.state).1 = true) (s : σ) :
    Touring c p m ⟨destroyAt t.table t.index .tombstone, skipToOccupied c t.table (t.index + 1), s,
      t.erased + 1, t.calls ++ [(t.index, e, true)]⟩ := by
  obtain ⟨hle, hbound, -, hstands⟩ := ht.inv.skip (show t.index + 1 ≤ c.bucketCount from hlt)
  obtain ⟨hinv, -⟩ := ht.inv.erased hlt he
  have hch : Changed t.table (destroyAt t.table t.index .tombstone) t.index .tombstone none :=
    ⟨fun _ => state_setState, rfl, rfl, rfl⟩
  refine ⟨hinv, ht.equal, hbound, ?_, ?_, ?_, ?_, ?_, ?_, ?_⟩
  · intro hnext
    have hne : skipToOccupied c t.table (t.index + 1) ≠ t.index := by omega
    change skipToOccupied c t.table (t.index + 1) < c.bucketCount at hnext
    exact (hch.state _).trans ((if_neg hne).trans (hstands hnext))
  · rw [ht.occupants_next hlt he, List.map_append, ht.asked]
    rfl
  · intro x hx
    rcases List.mem_append.mp hx with hx | hx
    · exact ht.answered x hx
    · rw [List.mem_singleton.mp hx]
      exact ⟨t.table, t.state, hp⟩
  · simp [ht.counted]
  · have hpos : 0 < t.table.size := by
      rw [ht.inv.size]
      exact List.length_pos_of_mem (mem_contents.mpr ⟨_, hlt, he⟩)
    have hsize := ht.size
    change t.table.size - 1 + (t.erased + 1) = _
    omega
  · intro i e' hx
    rw [hch.slot]
    split
    · rfl
    · next hne =>
      rcases List.mem_append.mp hx with hx | hx
      · exact ht.removed i e' hx
      · cases List.mem_singleton.mp hx
        exact absurd rfl hne
  · intro i hi hnot
    rw [hch.slot, if_neg ?_]
    · exact ht.rest i hi fun e' hx => hnot e' (List.mem_append_left _ hx)
    · rintro rfl
      exact hnot e (by simp)

end

end Loop

end Metl.StaticUnorderedMap

namespace Metl.StaticUnorderedSet
open Metl.Schemes Metl.Tables
open Metl.StaticUnorderedMap (Map Lawful)

variable {ι K V σ : Type} [DecidableEq ι] {w : ℕ}

/-! ### Over a set -/

def traversable (c : Cfg K w) : Traversable (KeySet K w) K K where
  finish := c.bucketCount
  slotState := KeySet.state
  size := KeySet.size
  find := findExistingIndex c
  skip := skipToOccupied c
  element := KeySet.storage
  key := id
  eraseAt := eraseAt c
  eraseKey := eraseKey c

end Metl.StaticUnorderedSet
