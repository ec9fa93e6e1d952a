import Metl.Sequences.FixedVector

/-! Insertions at a position while element constructors append.

        a  b  ·                 emplace x at 0, and its constructor appends c
        a  b  c                 the vector is full
        a  b  c │ c             the last element is moved past the storage

    The capacity is checked before the constructor runs and used after it. An insertion at the end
    claims its slot first and stays in bounds; one before the end does exactly when the constructor
    leaves a slot free, and the move constructor appends nothing. -/

namespace Metl.FixedVector

open Metl.Schemes Metl.Schemes.Storage Metl.Schemes.Prog Function

variable {A : Type} {P : Params A} {w w' : World A} {l : List (Option A)} {value : A}
  {ctor : Ctor A} {Q : Unit → World A → Prop} {R : World A → Prop}

/-- The slots, where one that is claimed and not yet built holds nothing. -/
def Slots (l : List (Option A)) (w : World A) : Prop :=
  Holds (fun n => (l[n]?).join) l.length w

/-! ### Appending -/

theorem ends_size {Q : ℕ → World A → Prop} {S : Prop} (hret : Q w.regs w) : size.EndsOr S w Q R := hret

theorem Slots.claim (h : Slots l w) : Holds (fun n => ((l ++ [none])[n]?).join) l.length w := by
  refine h.congr fun n => ?_
  rcases Nat.lt_trichotomy n l.length with hlt | rfl | hgt
  · rw [List.getElem?_append_left hlt]
  · simp
  · rw [List.getElem?_eq_none (by omega), List.getElem?_eq_none (by simp; omega)]

theorem fill_shape (l more : List (Option A)) (value : A) (n : ℕ) :
    update (fun n => ((l ++ none :: more)[n]?).join) l.length (some value) n =
      ((l ++ some value :: more)[n]?).join := by
  rcases Nat.lt_trichotomy n l.length with hlt | rfl | hgt
  · rw [update_of_ne (by omega), List.getElem?_append_left hlt, List.getElem?_append_left hlt]
  · simp
  · obtain ⟨k, rfl⟩ := Nat.exists_eq_add_of_lt hgt
    rw [update_of_ne (by omega), List.getElem?_append_right (by omega),
      List.getElem?_append_right (by omega)]
    simp [show l.length + k + 1 - l.length = k + 1 by omega]

/-- The slot behind `l` is claimed and still unbuilt, and building `value` in it gives `Q`. -/
def Awaits (l : List (Option A)) (value : A) (Q : World A → Prop) (w : World A) : Prop :=
  ∃ more, Slots (l ++ none :: more) w ∧ ∀ w', Slots (l ++ some value :: more) w' → Q w'

/-- STEP: an append claims the next slot, runs the constructor and builds the element there. -/
theorem ends_tryEmplaceBack {Q : Bool → World A → Prop} {run : Prog (World A) Unit}
    (h : Slots l w) (hroom : l.length < P.capacity) (hrun : ∀ w₁, Slots (l ++ [none]) w₁ →
      run.Ends w₁ (fun _ => Awaits l value (Q true)) fun _ => False) :
    (tryEmplaceBack P value run).Ends w Q R := by
  refine ends_bind (ends_getRegs h ?_)
  rw [if_neg (by omega)]
  refine ends_bind (ends_modifyRegs h.claim fun w₁ h₁ => ?_)
  have hclaimed : Slots (l ++ [none]) w₁ := by
    refine ⟨h₁.shape, ?_, h₁.ledger⟩
    rw [h₁.regs_eq, List.length_append]
    rfl
  refine ends_bind (ends_onThrow (ends_bind ((hrun w₁ hclaimed).mono ?_ fun _ hfalse => hfalse.elim)))
  rintro - w₂ ⟨more, h₂, hret⟩
  rw [constructSlot, if_pos hroom]
  refine ends_constructAt h₂ ?_ fun w₃ h₃ => ?_
  · simp
  · refine ends_pure (hret w₃ ⟨fun n => ?_, ?_, h₃.ledger⟩)
    · rw [h₃.shape n, fill_shape]
    · rw [h₃.regs_eq]
      simp

theorem ends_emplaceBack {Q : ℕ → World A → Prop} {run : Prog (World A) Unit}
    (h : Slots l w) (hroom : l.length < P.capacity) (hrun : ∀ w₁, Slots (l ++ [none]) w₁ →
      run.Ends w₁ (fun _ => Awaits l value (Q l.length)) fun _ => False) :
    (emplaceBack P value run).Ends w Q R := by
  refine ends_bind (ends_getRegs h (ends_bind ?_))
  refine (ends_tryEmplaceBack (Q := fun b w' => b = true ∧ Q l.length w') h hroom ?_).mono ?_
    fun _ hthrow => hthrow
  · simpa using hrun
  · rintro b w₁ ⟨rfl, hret⟩
    have hassert : assert P true = pure () := by
      unfold assert harden
      split <;> rfl
    rw [hassert]
    exact ends_bind (ends_pure (ends_pure hret))

/-- A full vector takes no appends. -/
theorem ends_appendBy_full {run : Prog (World A) Unit} (h : Slots l w)
    (hfull : l.length = P.capacity) (how : How) (hret : Q () w) :
    (appendBy P value run how).Ends w Q R := by
  cases how with
  | tryEmplaceBack =>
    refine ends_bind (ends_bind (ends_getRegs h ?_))
    rw [if_pos hfull]
    exact ends_pure (ends_pure hret)
  | emplaceBack =>
    refine ends_bind (ends_getRegs h ?_)
    rw [if_pos hfull]
    exact ends_pure hret

theorem ends_appendBy {run : Prog (World A) Unit} (h : Slots l w) (hroom : l.length < P.capacity)
    (how : How) (hrun : ∀ w₁, Slots (l ++ [none]) w₁ →
      run.Ends w₁ (fun _ => Awaits l value (Q ())) fun _ => False) :
    (appendBy P value run how).Ends w Q R := by
  cases how with
  | tryEmplaceBack => exact ends_bind (ends_tryEmplaceBack h hroom hrun)
  | emplaceBack =>
    refine ends_bind (ends_getRegs h ?_)
    rw [if_neg (by omega)]
    exact ends_bind (ends_emplaceBack h hroom hrun)

/-- What fits of the values a constructor appends, with `room` slots free. -/
def fitting (room : ℕ) (values : List A) : List (Option A) := (values.take room).map some

theorem length_fitting (room : ℕ) (values : List A) :
    (fitting room values).length = min room values.length := by
  rw [fitting, List.length_map, List.length_take]

theorem fitting_cons {room : ℕ} (value : A) (within rest : List A) :
    fitting (room + 1) (value :: (within ++ rest)) =
      some value :: (fitting room within ++ fitting (room - within.length) rest) := by
  rw [fitting, List.take_succ_cons, List.map_cons, List.take_append, List.map_append]
  rfl

/-- RUN: a constructor appends its values, and its appended elements' values, as far as they fit. -/
theorem ends_runCtor (h : Slots l w) (hbound : l.length ≤ P.capacity) (hquiet : ctor.quiet = true)
    (hret : ∀ w', Slots (l ++ fitting (P.capacity - l.length) ctor.values) w' → Q () w') :
    (runCtor P ctor).Ends w Q R := by
  induction ctor generalizing w l Q R with
  | returns =>
    refine ends_pure (hret w ?_)
    simpa [Ctor.values, fitting] using h
  | throws => cases hquiet
  | append how value within rest ihWithin ihRest =>
    obtain ⟨hwithin, hrest⟩ := (Bool.and_eq_true _ _).mp hquiet
    rcases Nat.eq_or_lt_of_le hbound with hfull | hroom
    · refine ends_bind (ends_appendBy_full h hfull how (ihRest h hbound hrest fun w₁ h₁ => hret w₁ ?_))
      rw [hfull, Nat.sub_self] at h₁ ⊢
      exact h₁
    · obtain ⟨room, hcapacity⟩ := Nat.exists_eq_add_of_lt hroom
      refine ends_bind (ends_appendBy h hroom how fun w₁ h₁ => ?_)
      refine ihWithin h₁ (by simp; omega) hwithin fun w₂ h₂ => ?_
      have hleft : P.capacity - (l ++ [none]).length = room := by
        simp
        omega
      rw [hleft, List.append_assoc] at h₂
      refine ⟨fitting room within.values, h₂, fun w₃ h₃ => ?_⟩
      refine ihRest h₃ ?_ hrest fun w₄ h₄ => hret w₄ ?_
      · rw [List.length_append, List.length_cons, length_fitting]
        omega
      · have hleft : P.capacity - (l ++ some value :: fitting room within.values).length =
            room - within.values.length := by
          rw [List.length_append, List.length_cons, length_fitting]
          omega
        have hroom' : P.capacity - l.length = room + 1 := by omega
        rw [hleft, List.append_assoc, List.cons_append] at h₄
        rw [hroom', Ctor.values, fitting_cons]
        exact h₄

/-! ### Elements -/

/-- The vector holds the list `l`. -/
def Elements (l : List A) (w : World A) : Prop := Slots (l.map some) w

section Elements
variable {l p q : List A} {e e' x : A} {index : ℕ}

theorem element_at (p q : List A) (e : A) : ((((p ++ e :: q).map some)[p.length]?).join) = some e := by
  simp

theorem ends_readElement {Q : A → World A → Prop} (h : Elements (p ++ e :: q) w) (hret : Q e w) :
    (readAt p.length).Ends w Q R :=
  ends_readAt h (element_at p q e) hret

theorem ends_writeElement (h : Elements (p ++ e :: q) w)
    (hret : ∀ w', Elements (p ++ e' :: q) w' → Q () w') : (writeAt p.length e').Ends w Q R := by
  refine ends_writeAt h (element_at p q e) fun w₁ h₁ => hret w₁ ⟨fun n => ?_, ?_, h₁.ledger⟩
  · rw [h₁.shape n]
    rcases Nat.lt_trichotomy n p.length with hlt | rfl | hgt
    · rw [update_of_ne (by omega), List.map_append, List.map_append,
        List.getElem?_append_left (by simpa using hlt), List.getElem?_append_left (by simpa using hlt)]
    · simp
    · obtain ⟨k, rfl⟩ := Nat.exists_eq_add_of_lt hgt
      have hk : p.length + k + 1 - p.length = k + 1 := by omega
      rw [update_of_ne (by omega), List.map_append, List.map_append,
        List.getElem?_append_right (by simp; omega), List.getElem?_append_right (by simp; omega)]
      simp [hk]
  · rw [h₁.regs_eq]
    simp

/-- A constructor runs on a vector with nothing under construction. -/
theorem Elements.ends_runCtor (h : Elements l w) (hbound : l.length ≤ P.capacity)
    (hquiet : ctor.quiet = true) : (runCtor P ctor).Ends w
      (fun _ w' => Elements (l ++ ctor.values.take (P.capacity - l.length)) w') R := by
  refine FixedVector.ends_runCtor h (by simpa using hbound) hquiet fun w' h' => ?_
  rw [List.length_map] at h'
  rw [Elements, List.map_append]
  exact h'

/-- RUN: the shift takes the free position down to `index`. -/
theorem ends_shiftLoop (h : Elements (p ++ x :: q) w) (hindex : index ≤ p.length)
    (hret : ∀ w' x', Elements (p.take index ++ x' :: (p.drop index ++ q)) w' → Q () w') :
    (shiftLoop P index p.length).Ends w Q R := by
  induction p using List.reverseRecOn generalizing x q w with
  | nil =>
    refine ends_pure (hret w x ?_)
    simpa using h
  | append_singleton p e ih =>
    rw [List.length_append, List.length_singleton] at hindex ⊢
    rw [shiftLoop]
    rw [List.append_assoc, List.singleton_append] at h
    rcases Nat.eq_or_lt_of_le hindex with rfl | hlt
    · rw [if_neg (Nat.lt_irrefl _)]
      refine ends_pure (hret w x ?_)
      rw [List.take_of_length_le (by simp), List.drop_of_length_le (by simp), List.append_assoc,
        List.singleton_append]
      exact h
    · rw [if_pos hlt]
      refine ends_bind (ends_readElement h (ends_bind (ends_writeElement h fun w₁ h₁ => ?_)))
      have hsplit : p ++ P.moved e :: x :: q = (p ++ [P.moved e]) ++ x :: q := by simp
      rw [hsplit] at h₁
      have hlength : p.length + 1 = (p ++ [P.moved e]).length := by simp
      rw [hlength]
      refine ends_bind (ends_writeElement h₁ fun w₂ h₂ => ?_)
      rw [List.append_assoc, List.singleton_append] at h₂
      refine ih h₂ (by omega) fun w₃ x' h₃ => hret w₃ x' ?_
      rw [List.take_append_of_le_length (by omega), List.drop_append_of_le_length (by omega),
        List.append_assoc]
      exact h₃

theorem insertIdx_append (p q : List A) (e : A) : (p ++ q).insertIdx p.length e = p ++ e :: q := by
  induction p with
  | nil => rfl
  | cons a p ih => simpa using ih

/-- STEP: with a slot free, the value is inserted. -/
theorem ends_shiftIn {Q : ℕ → World A → Prop} (h : Elements (p ++ [e]) w)
    (hroom : p.length + 1 < P.capacity) (hindex : index ≤ p.length)
    (hret : ∀ w', Elements ((p ++ [e]).insertIdx index value) w' → Q index w') :
    (shiftIn P index value (p.length + 1) e).Ends w Q R := by
  refine ends_bind (ends_writeElement h fun w₁ h₁ => ?_)
  have hlength : ((p ++ [P.moved e]).map some).length = p.length + 1 := by simp
  rw [constructSlot, if_pos hroom]
  rw [← hlength]
  refine ends_bind (ends_constructAt h₁.claim (by simp) fun w₂ h₂ => ?_)
  refine ends_bind (ends_getRegs h₂ (ends_bind (ends_modifyRegs h₂ fun w₃ h₃ => ?_)))
  have hmoved : Elements (p ++ P.moved e :: [e]) w₃ := by
    refine ⟨fun n => ?_, ?_, h₃.ledger⟩
    · rw [h₃.shape n, fill_shape]
      simp
    · rw [h₃.regs_eq]
      simp
  rw [hlength, Nat.add_sub_cancel]
  refine ends_bind (ends_shiftLoop hmoved hindex fun w₄ x' h₄ => ?_)
  have htake : index = (p.take index).length := by
    rw [List.length_take]
    omega
  have hresult := insertIdx_append (p.take index) (p.drop index ++ [e]) value
  rw [← htake, ← List.append_assoc, List.take_append_drop] at hresult
  rw [hresult] at hret
  refine ends_bind ?_
  nth_rewrite 1 [htake]
  exact ends_writeElement h₄ fun w₅ h₅ => ends_pure (hret w₅ h₅)

/-- Without one, it is undefined. -/
theorem shiftIn_full (h : Elements (p ++ [e]) w) (hfull : p.length + 1 = P.capacity) :
    shiftIn P index value (p.length + 1) e w = .undefined := by
  have hinvalid : constructSlot P (p.length + 1) e = Prog.invalid := by
    rw [constructSlot, if_neg (by omega)]
  refine EndsOr.bind_outcome (P := fun o => o = .undefined)
    (ends_writeElement h fun w₁ h₁ => trivial : (writeAt p.length (P.moved e)).Ends w
      (fun _ _ => True) fun _ => False) fun _ w₁ _ => ?_
  rw [hinvalid]
  rfl

end Elements

/-! ### A move constructor that appends -/

/-- The first `n` slots are alive, and the size is `s`. -/
structure Alive (n s : ℕ) (w : World A) : Prop where
  alive : ∀ k, (w.cell k).isSome = true ↔ k < n
  size_eq : w.regs = s

section Alive
variable {n s k index : ℕ} {a : A}

theorem Alive.ends_readAt {Q : A → World A → Prop} (h : Alive n s w) (hk : k < n)
    (hret : ∀ a, Q a w) : (readAt k).Ends w Q R := by
  obtain ⟨o, ho⟩ := Option.isSome_iff_exists.mp ((h.alive k).mpr hk)
  unfold Ends EndsOr readAt
  simp only [ho]
  exact hret o.2

theorem alive_update {o : ℕ × A} {cell : ℕ → Option (ℕ × A)}
    (h : ∀ k, (cell k).isSome = true ↔ k < n) (hk : k < n) (j : ℕ) :
    (update cell k (some o) j).isSome = true ↔ j < n := by
  rcases eq_or_ne j k with rfl | hj
  · simp [hk]
  · rw [update_of_ne hj, h j]

theorem Alive.ends_writeAt (h : Alive n s w) (hk : k < n)
    (hret : ∀ w', Alive n s w' → Q () w') : (writeAt k a).Ends w Q R := by
  obtain ⟨o, ho⟩ := Option.isSome_iff_exists.mp ((h.alive k).mpr hk)
  unfold Ends EndsOr writeAt
  simp only [ho]
  exact hret _ ⟨alive_update h.alive hk, h.size_eq⟩

/-- To build over a live element loses it and makes no slot alive. -/
theorem Alive.ends_constructAt (h : Alive n s w) (hk : k < n)
    (hret : ∀ w', Alive n s w' → Q () w') : (constructAt k a).Ends w Q R :=
  hret _ ⟨alive_update h.alive hk, h.size_eq⟩

theorem Alive.ends_setSize {s' : ℕ} (h : Alive n s w) (hret : ∀ w', Alive n s' w' → Q () w') :
    (setSize s').Ends w Q R :=
  hret _ ⟨h.alive, rfl⟩

theorem Alive.ends_shiftLoop (h : Alive n s w) (hk : k < n)
    (hret : ∀ w', Alive n s w' → Q () w') : (shiftLoop P index k).Ends w Q R := by
  induction k generalizing w with
  | zero => exact ends_pure (hret w h)
  | succ k ih =>
    rw [shiftLoop]
    split
    · refine ends_bind (h.ends_readAt (by omega) fun e => ?_)
      refine ends_bind (h.ends_writeAt (by omega) fun w₁ h₁ => ?_)
      exact ends_bind (h₁.ends_writeAt hk fun w₂ h₂ => ih h₂ (by omega))
    · exact ends_pure (hret w h)

/-- The move constructor has appended into the slot it is to fill: afterwards the last slot that is
    counted is dead. -/
theorem Alive.ends_shiftIn {Q : ℕ → World A → Prop} (h : Alive n n w) (hs : 0 < s) (hsn : s < n)
    (hindex : index < n) (hroom : s < P.capacity) (hret : ∀ w', Alive n (n + 1) w' → Q index w') :
    (shiftIn P index value s a).Ends w Q R := by
  refine ends_bind (h.ends_writeAt (by omega) fun w₁ h₁ => ?_)
  rw [constructSlot, if_pos hroom]
  refine ends_bind (h₁.ends_constructAt hsn fun w₂ h₂ => ?_)
  refine ends_bind (ends_size ?_)
  rw [h₂.size_eq]
  refine ends_bind (h₂.ends_setSize fun w₃ h₃ => ?_)
  refine ends_bind (h₃.ends_shiftLoop (by omega) fun w₄ h₄ => ?_)
  exact ends_bind (h₄.ends_writeAt hindex fun w₅ h₅ => ends_pure (hret w₅ h₅))

theorem Elements.alive {l : List A} (h : Elements l w) : Alive l.length l.length w where
  alive := fun k => by
    have hshape := congrArg Option.isSome (h.shape k)
    rw [Option.isSome_map] at hshape
    rw [hshape, List.getElem?_map]
    cases hk : l[k]? with
    | none =>
      rw [List.getElem?_eq_none_iff] at hk
      simp [hk]
    | some a =>
      obtain ⟨hlt, -⟩ := List.getElem?_eq_some_iff.mp hk
      simp [hlt]
  size_eq := by
    rw [h.regs_eq, List.length_map]

theorem Alive.not_elements {l : List A} (h : Alive n (n + 1) w) : ¬ Elements l w := by
  intro hl
  have hsize := hl.alive.size_eq
  rw [h.size_eq] at hsize
  have hslot := (h.alive n).mp ((hl.alive.alive n).mpr (by omega))
  omega

end Alive

/-! ### The insertions -/

/-- The vector holds `l`, within its capacity. -/
structure Holding (capacity : ℕ) (l : List A) (w : World A) : Prop where
  elements : Elements l w
  room : l.length ≤ capacity

/-- The vector after the insertion: what the constructor appended stands at the end. -/
def inserted (capacity : ℕ) (l : List A) (op : Op A) : List A :=
  (l ++ op.build.values.take (capacity - l.length - 1)).insertIdx op.index op.value

/-- The insertion was made, and its result denotes the new element. -/
structure Inserted (capacity : ℕ) (l : List A) (op : Op A) (it : ℕ) (w : World A) : Prop where
  position : it = op.index
  holding : Holding capacity (inserted capacity l op) w
  denotes : (inserted capacity l op)[it]? = some op.value

def Form.tries : Form → Bool
  | .emplace => false
  | .insert => false
  | .tryEmplace => true
  | .tryInsert => true

/-- How an insertion into a vector that holds `l` may end: with the element inserted, with the vector
    unchanged because it was full and the form reports that, or by a check that failed before anything
    was written. -/
def Contract (capacity : ℕ) (l : List A) (op : Op A) : Outcome (World A) ℕ → Prop
  | .ret it w => Inserted capacity l op it w ∨
      op.form.tries = true ∧ l.length = capacity ∧ it = l.length ∧ Holding capacity l w
  | .stopped => l.length < op.index ∨ l.length = capacity
  | .thrown _ => False
  | .undefined => False

/-- Before the end, the constructor of the new element leaves no slot free, or the move constructor
    appends. -/
def Overruns (P : Params A) (l : List A) (op : Op A) : Prop :=
  op.index < l.length ∧ l.length < P.capacity ∧
    (P.capacity ≤ l.length + op.build.values.length ∨ P.relocate.values ≠ [])

theorem size_bind {β : Type} (f : ℕ → Prog (World A) β) (w : World A) : (size >>= f) w = f w.regs w :=
  rfl

theorem harden_bind {β : Type} (b : Bool) (f : Unit → Prog (World A) β) (w : World A) :
    (harden b >>= f) w = if b then f () w else .stopped := by
  cases b <;> rfl

/-- An insertion at the end: its slot is claimed before the constructor runs. -/
theorem ends_emplaceAtEnd {l : List A} {op : Op A} (h : Holding P.capacity l w)
    (hroom : l.length < P.capacity) (hindex : op.index = l.length) (hquiet : op.build.quiet = true) : (do
      let _ ← emplaceBack P op.value (runCtor P op.build)
      pure op.index : Prog (World A) ℕ).Ends w (fun it w' => Inserted P.capacity l op it w') R := by
  obtain ⟨room, hcapacity⟩ := Nat.exists_eq_add_of_lt hroom
  have hleft : P.capacity - l.length - 1 = room := by omega
  have hresult : inserted P.capacity l op = l ++ op.value :: op.build.values.take room := by
    rw [inserted, hindex, insertIdx_append, hleft]
  refine ends_bind (ends_emplaceBack h.elements (by simpa using hroom) fun w₁ h₁ => ?_)
  refine ends_runCtor h₁ (by simp; omega) hquiet fun w₂ h₂ => ?_
  have hfree : P.capacity - (l.map some ++ [none]).length = room := by
    simp
    omega
  rw [hfree, List.append_assoc] at h₂
  refine ⟨fitting room op.build.values, h₂, fun w₃ h₃ => ends_pure ?_⟩
  refine ⟨rfl, ⟨?_, ?_⟩, ?_⟩
  · rw [hresult, Elements, List.map_append, List.map_cons]
    exact h₃
  · rw [hresult, List.length_append, List.length_cons, List.length_take]
    omega
  · rw [hresult, hindex, List.getElem?_append_right (Nat.le_refl _), Nat.sub_self]
    rfl

/-- An insertion before the end, after the value's constructor has left `p ++ [e]` in the vector. -/
theorem shiftIn_contract {l p : List A} {e : A} {op : Op A} (hw : Elements (p ++ [e]) w)
    (hgrown : p ++ [e] = l ++ op.build.values.take (P.capacity - l.length))
    (hroom : l.length < P.capacity) (hindex : op.index < l.length) (hrelocate : P.relocate.quiet = true) :
    Contract P.capacity l op ((do
      runCtor P P.relocate
      shiftIn P op.index op.value (p.length + 1) e : Prog (World A) ℕ) w) ↔ ¬ Overruns P l op := by
  have hlength : p.length + 1 = l.length + min (P.capacity - l.length) op.build.values.length := by
    have hcongr := congrArg List.length hgrown
    simpa using hcongr
  have hbound : (p ++ [e]).length ≤ P.capacity := by
    simp only [List.length_append, List.length_singleton]
    omega
  refine EndsOr.bind_outcome (P := fun o => Contract P.capacity l op o ↔ ¬ Overruns P l op)
    (hw.ends_runCtor hbound hrelocate) fun _ w₁ h₁ => ?_
  by_cases hfull : P.capacity ≤ l.length + op.build.values.length
  · -- the last element would go past the storage
    have hcapacity : P.capacity - (p ++ [e]).length = 0 := by
      simp only [List.length_append, List.length_singleton]
      omega
    rw [hcapacity, List.take_zero, List.append_nil] at h₁
    rw [shiftIn_full h₁ (by omega)]
    exact iff_of_false id (not_not.mpr ⟨hindex, hroom, Or.inl hfull⟩)
  · by_cases happends : P.relocate.values = []
    · rw [happends, List.take_nil, List.append_nil] at h₁
      have hends : (shiftIn P op.index op.value (p.length + 1) e).Ends w₁
          (fun it w' => Inserted P.capacity l op it w') fun _ => False := by
        refine ends_shiftIn h₁ (by omega) (by omega) fun w₂ h₂ => ?_
        have hresult : inserted P.capacity l op = (p ++ [e]).insertIdx op.index op.value := by
          rw [hgrown, inserted, List.take_of_length_le (by omega), List.take_of_length_le (by omega)]
        have hmax : op.index ≤ (p ++ [e]).length := by
          simp only [List.length_append, List.length_singleton]
          omega
        refine ⟨rfl, ⟨?_, ?_⟩, ?_⟩
        · rw [hresult]
          exact h₂
        · rw [hresult, List.length_insertIdx_of_le_length hmax]
          simp only [List.length_append, List.length_singleton]
          omega
        · rw [hresult, List.getElem?_insertIdx_self, if_pos hmax]
      obtain ⟨it, w₂, hret, hinserted⟩ := hends.returns
      rw [hret]
      refine iff_of_true (Or.inl hinserted) ?_
      rintro ⟨-, -, hover | happend⟩
      · exact hfull hover
      · exact happend happends
    · -- the move constructor has taken the slot it is to fill
      have hpos := List.length_pos_iff.mpr happends
      have hmore : p.length + 1 < (p ++ [e] ++
          P.relocate.values.take (P.capacity - (p ++ [e]).length)).length := by
        simp only [List.length_append, List.length_singleton, List.length_take]
        omega
      have hends : (shiftIn P op.index op.value (p.length + 1) e).Ends w₁
          (fun _ w' => ∀ l', ¬ Elements l' w') fun _ => False :=
        h₁.alive.ends_shiftIn (by omega) hmore (by omega) (by omega) fun w₂ h₂ l' => h₂.not_elements
      obtain ⟨it, w₂, hret, hnone⟩ := hends.returns
      rw [hret]
      refine iff_of_false ?_ (not_not.mpr ⟨hindex, hroom, Or.inr happends⟩)
      rintro (hinserted | ⟨-, -, -, hheld⟩)
      · exact hnone _ hinserted.holding.elements
      · exact hnone _ hheld.elements

/-- `emplace` meets the contract exactly unless it overruns. -/
theorem emplace_contract {l : List A} {op : Op A} (h : Holding P.capacity l w)
    (hbuild : op.build.quiet = true) (hrelocate : P.relocate.quiet = true) :
    Contract P.capacity l op (emplace P op.index op.value op.build w) ↔ ¬ Overruns P l op := by
  have hbound := h.room
  have hsize : w.regs = l.length := h.elements.alive.size_eq
  rw [emplace, size_bind, hsize, harden_bind]
  by_cases hindex : op.index ≤ l.length
  · rw [if_pos (decide_eq_true hindex), harden_bind]
    by_cases hroom : l.length < P.capacity
    · rw [if_pos (decide_eq_true hroom)]
      by_cases hend : op.index = l.length
      · rw [if_pos hend]
        have hends := ends_emplaceAtEnd (R := fun _ => False) h hroom hend hbuild
        obtain ⟨it, w₁, hret, hinserted⟩ := hends.returns
        rw [hret]
        refine iff_of_true (Or.inl hinserted) ?_
        rintro ⟨hbefore, -⟩
        omega
      · rw [if_neg hend]
        refine EndsOr.bind_outcome (P := fun o => Contract P.capacity l op o ↔ ¬ Overruns P l op)
          (h.elements.ends_runCtor hbound hbuild) fun _ w₁ h₁ => ?_
        have hne : l ++ op.build.values.take (P.capacity - l.length) ≠ [] := by
          intro hnil
          rw [List.append_eq_nil_iff] at hnil
          rw [hnil.1, List.length_nil] at hindex hend
          omega
        obtain ⟨p, e, hgrown⟩ := (List.eq_nil_or_concat _).resolve_left hne
        rw [List.concat_eq_append] at hgrown
        rw [hgrown] at h₁
        rw [size_bind, h₁.alive.size_eq, List.length_append, List.length_singleton, Nat.add_sub_cancel]
        refine EndsOr.bind_outcome (P := fun o => Contract P.capacity l op o ↔ ¬ Overruns P l op)
          (ends_readElement h₁ ⟨rfl, h₁⟩ :
            (readAt p.length).Ends w₁ (fun a w₂ => a = e ∧ Elements (p ++ [e]) w₂) fun _ => False) ?_
        rintro a w₂ ⟨rfl, h₂⟩
        exact shiftIn_contract h₂ hgrown.symm hroom (by omega) hrelocate
    · rw [if_neg (by simpa using hroom)]
      refine iff_of_true (Or.inr (by omega)) ?_
      rintro ⟨-, hfree, -⟩
      omega
  · rw [if_neg (by simpa using hindex)]
    refine iff_of_true (Or.inl (by omega)) ?_
    rintro ⟨hbefore, -⟩
    omega

/-- The forms that report a full vector meet it likewise. -/
theorem tryEmplace_contract {l : List A} {op : Op A} (h : Holding P.capacity l w)
    (htries : op.form.tries = true) (hbuild : op.build.quiet = true)
    (hrelocate : P.relocate.quiet = true) :
    Contract P.capacity l op (tryEmplace P op.index op.value op.build w) ↔ ¬ Overruns P l op := by
  have hsize : w.regs = l.length := h.elements.alive.size_eq
  rw [tryEmplace, size_bind, hsize, harden_bind]
  by_cases hindex : op.index ≤ l.length
  · rw [if_pos (decide_eq_true hindex)]
    by_cases hfull : l.length = P.capacity
    · rw [if_pos hfull]
      refine iff_of_true (Or.inr ⟨htries, hfull, rfl, h⟩) ?_
      rintro ⟨-, hfree, -⟩
      omega
    · rw [if_neg hfull]
      exact emplace_contract h hbuild hrelocate
  · rw [if_neg (by simpa using hindex)]
    refine iff_of_true (Or.inl (by omega)) ?_
    rintro ⟨hbefore, -⟩
    omega

/-- CORRECT: for every vector, every position and every finite behaviour of the element constructors that
    throws nothing, an insertion stays in the storage, leaves exactly the counted slots alive and
    returns the position of the new element, or stops before it has written anything; exactly unless,
    before the end, the new element's constructor leaves no slot free or the move constructor appends. -/
theorem insertion_in_bounds (P : Params A) (l : List A) (w : World A) (hw : Holding P.capacity l w)
    (op : Op A) (hbuild : op.build.quiet = true) (hrelocate : P.relocate.quiet = true) :
    Contract P.capacity l op (exec P op w) ↔ ¬ Overruns P l op := by
  obtain ⟨form, index, value, build⟩ := op
  cases form with
  | emplace => exact emplace_contract hw hbuild hrelocate
  | insert => exact emplace_contract hw hbuild hrelocate
  | tryEmplace => exact tryEmplace_contract hw rfl hbuild hrelocate
  | tryInsert => exact tryEmplace_contract hw rfl hbuild hrelocate

/-- A vector built by appending the elements of `l`. -/
def ofList (l : List A) : World A := ⟨fun n => (l[n]?).map fun a => (n, a), l.length, [], l.length⟩

theorem ofList_elements (l : List A) : Elements l (ofList l) := by
  have hslot : ∀ n k, ((ofList l).cell n).map Prod.fst = some k ↔ n < l.length ∧ n = k := by
    intro n k
    simp [ofList, List.getElem?_eq_some_iff]
  refine ⟨fun n => ?_, (List.length_map _).symm, ?_⟩
  · rw [List.getElem?_map]
    change ((l[n]?).map fun a => (n, a)).map Prod.snd = _
    cases l[n]? <;> rfl
  · refine ⟨fun n k h => ?_, fun m n k hm hn => ?_, List.nodup_nil, by simp [ofList], fun k hk => ?_⟩
    · obtain ⟨hlt, rfl⟩ := (hslot n k).mp h
      exact ⟨hlt, by simp [ofList]⟩
    · obtain ⟨-, rfl⟩ := (hslot m k).mp hm
      exact ((hslot n m).mp hn).2.symm
    · exact Or.inr ⟨k, (hslot k k).mpr ⟨hk, rfl⟩⟩

/-- A plain element type: a moved-from element is 0, and moving appends nothing. -/
def plain (capacity : ℕ) : Params ℕ := ⟨capacity, true, fun _ => 0, .returns⟩

/-- 9 inserted in front; its constructor appends 7. -/
def insertNine (form : Form) : Op ℕ := ⟨form, 0, 9, .append .emplaceBack 7 .returns .returns⟩

theorem insertion_in_bounds_sample : ∃ w,
    exec (plain 4) (insertNine .emplace) (ofList [1, 2]) = .ret 0 w ∧
    inserted 4 [1, 2] (insertNine .emplace) = [9, 1, 2, 7] ∧
    Inserted 4 [1, 2] (insertNine .emplace) 0 w := by
  have hno : ¬ Overruns (plain 4) [1, 2] (insertNine .emplace) := by
    rintro ⟨-, -, hover | happends⟩
    · revert hover
      decide
    · exact happends rfl
  have hiff := insertion_in_bounds (plain 4) [1, 2] (ofList [1, 2])
    ⟨ofList_elements _, by decide⟩ (insertNine .emplace) rfl rfl
  cases hexec : exec (plain 4) (insertNine .emplace) (ofList [1, 2]) with
  | ret it w =>
    rw [hexec] at hiff
    have hinserted := (hiff.mpr hno).resolve_right fun hfull => by cases hfull.1
    obtain rfl := hinserted.position
    exact ⟨w, rfl, rfl, hinserted⟩
  | stopped =>
    rw [hexec] at hiff
    rcases hiff.mpr hno with hindex | hfull
    · cases hindex
    · cases hfull
  | thrown w =>
    rw [hexec] at hiff
    exact (hiff.mpr hno).elim
  | undefined =>
    rw [hexec] at hiff
    exact (hiff.mpr hno).elim

/-- The same in a vector of capacity 3: the 7 takes the last slot, and the shift builds an element in
    slot 3. -/
theorem shift_past_capacity : Holding 3 [1, 2] (ofList [1, 2]) ∧
    (∃ w, runCtor (plain 3) (insertNine .emplace).build (ofList [1, 2]) = .ret () w ∧ w.regs = 3) ∧
    exec (plain 3) (insertNine .emplace) (ofList [1, 2]) = .undefined ∧
    exec (plain 3) (insertNine .tryEmplace) (ofList [1, 2]) = .undefined :=
  ⟨⟨ofList_elements _, by decide⟩, ⟨_, rfl, rfl⟩, rfl, rfl⟩

end Metl.FixedVector
