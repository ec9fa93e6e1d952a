import Metl.Tables.FlatSearch

/-! The moves of whole entries that no handler guards.

        2   5            try_emplace 3, where the move of 5's value throws after the move of its key
        2   0            the key is moved from, and still counted

    There are two: the first one of an insertion before the end, and the one out of an entry that is
    erased. They lose the order exactly when the value's move throws and the key was left out of
    place. -/

namespace Metl.FlatMap

open Metl.Schemes Metl.Schemes.Storage Metl.Schemes.Prog Function

variable {C K V : Type}

/-- The elements of a container, in order. -/
def entries (w : World C K V) (c : C) : List (Entry K V) :=
  (List.range (w.regs.size c)).filterMap fun n => (w.cell (c, n)).map Prod.snd

/-- The entries after the key of one was moved from. -/
def keyLeft (left : Left K V) (n : ℕ) (l : List (Entry K V)) : List (Entry K V) :=
  l.modify n fun e => { e with key := left.key e.key }

/-- The next call moves the value of an entry, and throws. -/
def ValueThrows (T : Traits) (script : List (Call K V)) : Prop :=
  T.isMap = true ∧ (T.nothrowMoveValue || T.noExceptions) = false ∧ ∃ rest, script = .throws :: rest

/-- The next two calls move the key of an entry, leaving one out of place, and throw at its value. -/
def SpoilsMove (T : Traits) (p : C × ℕ) (w : World C K V) : Prop :=
  ∃ left rest, w.regs.script = .leaves left :: rest ∧ ValueThrows T rest ∧
    ¬ SortedBy (w.regs.less p.1) (keyLeft left p.2 (entries w p.1))

/-- The same, after `m` has found which entry is to be moved. -/
def SpoilsAfter (T : Traits) (m : Prog (World C K V) (Option (C × ℕ))) (w : World C K V) : Prop :=
  ∃ p w', m w = .ret (some p) w' ∧ SpoilsMove T p w'

/-- `try_insert_at` up to its unguarded move, of the last entry. -/
def insertFirstMove (T : Traits) (capacity : ℕ) (c : C) (index : ℕ) :
    Prog (World C K V) (Option (C × ℕ)) := do
  let s ← sizeOf c
  if s = capacity then pure none
  else
    moveLocal T false false
    pure (if T.assignable ∧ index ≠ s then some (c, s - 1) else none)

/-- An operation up to its unguarded move, if it has one. -/
def firstMove (T : Traits) (capacity : ℕ) : Op C K V → Prog (World C K V) (Option (C × ℕ))
  | .tryEmplace c key _ | .emplace c key _ | .tryInsertOrAssign c key _
  | .insertOrAssign c key _ => do
    let found ← locate T c key
    if found.2 then pure none else insertFirstMove T capacity c found.1
  | .eraseKey c key => do
    let found ← locate T c key
    pure (if found.2 then some (c, found.1) else none)
  | .eraseAt c index => pure (some (c, index))
  | .swap _ _ => pure none

/-- The operation throws in its unguarded move and leaves a key out of place. -/
def Spoils (T : Traits) (capacity : ℕ) (op : Op C K V) (w : World C K V) : Prop :=
  SpoilsAfter T (firstMove T capacity op) w

def lengths (σ : C → List (Entry K V)) : C → ℕ := fun c => (σ c).length

/-- The containers hold the lists `σ`, and nothing is lost or destroyed twice. -/
structure Rep (capacity : ℕ) (σ : C → List (Entry K V)) (ls : C → K → K → Bool)
    (w : World C K V) : Prop where
  has : Has (shapeOf σ) (lengths σ) ls w
  room : ∀ c, (σ c).length ≤ capacity
  order : ∀ c, StrictWeak (ls c)

/-- Every container is as it should be, and sorted exactly unless `spoilt`. -/
def Ordered (capacity : ℕ) (spoilt : Prop) (w : World C K V) : Prop :=
  ∃ σ ls, Rep capacity σ ls w ∧ ((∀ c, SortedBy (ls c) (σ c)) ↔ ¬ spoilt)

section Entries
variable {T : Traits} {capacity : ℕ} {spoilt : Prop} {σ : C → List (Entry K V)} {sz : C → ℕ}
  {ls : C → K → K → Bool} {w : World C K V} {script : List (Call K V)} {c : C} {n : ℕ}

theorem entries_eq (h : Has (shapeOf σ) (lengths σ) ls w) (c : C) : entries w c = σ c := by
  obtain ⟨script, h⟩ := h
  have hcell : (fun n => (w.cell (c, n)).map Prod.snd) = fun n => (σ c)[n]? := by
    funext n
    exact h.shape (c, n)
  have hlist : ∀ l : List (Entry K V), (List.range l.length).filterMap (fun n => l[n]?) = l := by
    intro l
    induction l with
    | nil => rfl
    | cons e l ih =>
      rw [List.length_cons, List.range_succ_eq_map, List.filterMap_cons, List.filterMap_map]
      simpa [comp_def] using ih
  rw [entries, hcell, h.regs_eq]
  exact hlist (σ c)

theorem spoilsMove_iff (h : Holds (shapeOf σ) ⟨lengths σ, ls, script⟩ w) :
    SpoilsMove T (c, n) w ↔ ∃ left rest, script = .leaves left :: rest ∧ ValueThrows T rest ∧
      ¬ SortedBy (ls c) (keyLeft left n (σ c)) := by
  have hless : w.regs.less = ls := by rw [h.regs_eq]
  have hscript : w.regs.script = script := by rw [h.regs_eq]
  unfold SpoilsMove
  rw [entries_eq ⟨script, h⟩, hless, hscript]

theorem Rep.ends_sizeOf {Q : ℕ → World C K V → Prop} {R : World C K V → Prop} (h : Rep capacity σ ls w)
    (hret : Q (σ c).length w) : (sizeOf c).Ends w Q R := FlatMap.ends_sizeOf h.has hret

theorem Ordered.congr {q : Prop} (h : Ordered capacity spoilt w) (hq : spoilt ↔ q) :
    Ordered capacity q w := propext hq ▸ h

theorem Rep.ordered (h : Rep capacity σ ls w) (hsorted : ∀ c, SortedBy (ls c) (σ c))
    (hno : ¬ spoilt) : Ordered capacity spoilt w :=
  ⟨σ, ls, h, iff_of_true hsorted hno⟩

variable {α : Type} {m : Prog (World C K V) α} {g : α → Prog (World C K V) (Option (C × ℕ))}
  {w' : World C K V}

theorem spoilsAfter_bind {a : α} (h : m w = .ret a w') :
    SpoilsAfter T (g a) w' ↔ SpoilsAfter T (m >>= g) w := by
  have hbind : (m >>= g) w = g a w' := by
    change Prog.bind m g w = _
    rw [Prog.bind, h]
  unfold SpoilsAfter
  rw [hbind]

theorem not_spoilsAfter_thrown (h : m w = .thrown w') : ¬ SpoilsAfter T (m >>= g) w := by
  have hbind : (m >>= g) w = .thrown w' := by
    change Prog.bind m g w = _
    rw [Prog.bind, h]
  rintro ⟨p, w₁, hret, -⟩
  rw [hbind] at hret
  cases hret

theorem spoilsAfter_some {p : C × ℕ} : SpoilsAfter T (pure (some p)) w ↔ SpoilsMove T p w := by
  constructor
  · rintro ⟨p', w', hret, hspoils⟩
    cases hret
    exact hspoils
  · intro h
    exact ⟨p, w, rfl, h⟩

theorem not_spoilsAfter_none : ¬ SpoilsAfter T (pure none) w := by
  rintro ⟨p, w', hret, -⟩
  cases hret

/-- What an operation and the search for its unguarded move begin with does not spoil. -/
theorem ends_bind_ordered {S : Prop} {β : Type} {f : α → Prog (World C K V) β}
    {Q : β → World C K V → Prop}
    (h : m.EndsOr S w
      (fun a w₁ => (f a).EndsOr S w₁ Q fun w' => Ordered capacity (SpoilsAfter T (g a) w₁) w')
      fun w' => Ordered capacity False w') :
    (m >>= f).EndsOr S w Q fun w' => Ordered capacity (SpoilsAfter T (m >>= g) w) w' := by
  refine ends_bind (h.witness.mono (fun a w₁ => ?_) fun w₁ => ?_)
  · rintro ⟨hm, hf⟩
    exact hf.mono (fun _ _ hq => hq) fun w' hw' => hw'.congr (spoilsAfter_bind hm)
  · rintro ⟨hm, hw₁⟩
    exact hw₁.congr (iff_of_false id (not_spoilsAfter_thrown hm))

end Entries

variable [DecidableEq C] {T : Traits} {capacity : ℕ} {spoilt : Prop} {σ : C → List (Entry K V)}
  {ls : C → K → K → Bool} {w : World C K V} {c d : C} {n index : ℕ} {l : List (Entry K V)}
  {e : Entry K V} {key : K} {value : V}

theorem lengths_update (σ : C → List (Entry K V)) (c : C) (l : List (Entry K V)) :
    lengths (update σ c l) = update (lengths σ) c l.length := by
  funext x
  rcases eq_or_ne x c with rfl | hx
  · simp [lengths]
  · simp [lengths, hx]

variable {w' : World C K V} {left : Left K V}

/-- One container has changed. -/
theorem Rep.update (h : Rep capacity σ ls w)
    (hw : Has (shapeOf (Function.update σ c l)) (Function.update (lengths σ) c l.length) ls w')
    (hroom : l.length ≤ capacity) : Rep capacity (Function.update σ c l) ls w' where
  has := by rw [lengths_update]; exact hw
  room := fun x => by
    rcases eq_or_ne x c with rfl | hx
    · simpa using hroom
    · simpa [hx] using h.room x
  order := h.order

theorem sorted_update (hsorted : ∀ x, SortedBy (ls x) (σ x)) :
    (∀ x, SortedBy (ls x) (update σ c l x)) ↔ SortedBy (ls c) l := by
  constructor
  · intro h
    simpa using h c
  · intro h x
    rcases eq_or_ne x c with rfl | hx
    · simpa using h
    · simpa [hx] using hsorted x

/-- One container has changed, and is sorted. -/
theorem Rep.ordered_update (h : Rep capacity σ ls w) (hsorted : ∀ x, SortedBy (ls x) (σ x))
    (hno : ¬ spoilt) (hl : SortedBy (ls c) l) (hroom : l.length ≤ capacity)
    (hw : Has (shapeOf (Function.update σ c l)) (Function.update (lengths σ) c l.length) ls w') :
    Ordered capacity spoilt w' :=
  (h.update hw hroom).ordered ((sorted_update hsorted).mpr hl) hno

theorem Rep.ordered_empty (h : Rep capacity σ ls w) (hsorted : ∀ x, SortedBy (ls x) (σ x))
    (hno : ¬ spoilt)
    (hw : Has (shapeOf (Function.update σ c [])) (Function.update (lengths σ) c 0) ls w') :
    Ordered capacity spoilt w' :=
  h.ordered_update hsorted hno List.Pairwise.nil (Nat.zero_le _) hw

/-! ### The unguarded move -/

theorem keyLeft_shape (he : (σ c)[n]? = some e) (p : C × ℕ) :
    update (shapeOf σ) (c, n) (some { e with key := left.key e.key }) p =
      shapeOf (update σ c (keyLeft left n (σ c))) p := by
  refine shapeOf_update _ (fun q hq => ?_) (fun m => ?_) p
  · exact update_of_ne (fun heq => hq (by rw [heq])) ..
  · rcases eq_or_ne m n with rfl | hm
    · rw [update_self, keyLeft, List.getElem?_modify_eq, he]
      rfl
    · rw [update_of_ne (by simp [hm]), keyLeft, List.getElem?_modify_ne _ _ (Ne.symm hm)]
      rfl

theorem length_keyLeft (left : Left K V) (n : ℕ) (l : List (Entry K V)) :
    (keyLeft left n l).length = l.length := List.length_modify ..

/-- The move of the value, once that of the key has left `left` there and the calls `rest` to come. -/
theorem ends_moveValue {rest : List (Call K V)} {Q : Unit → World C K V → Prop}
    (h : Rep capacity σ ls w) (hsorted : ∀ x, SortedBy (ls x) (σ x)) (he : (σ c)[n]? = some e)
    (hw : Holds (update (shapeOf σ) (c, n) (some { e with key := left.key e.key }))
      ⟨lengths σ, ls, rest⟩ w') (hfine : ¬ ValueThrows T rest → ¬ spoilt)
    (hlost : ValueThrows T rest → (SortedBy (ls c) (keyLeft left n (σ c)) ↔ ¬ spoilt))
    (hret : ∀ w' τ', ¬ spoilt → Alters (c, n) (shapeOf σ) τ' → Has τ' (lengths σ) ls w' → Q () w') :
    (mapped T (moveValue T c n)).Ends w' Q fun w' => Ordered capacity spoilt w' := by
  have halter := alters_update (shapeOf σ) (c, n) { e with key := left.key e.key }
  have hwrite : ∀ (left' : Left K V) w₁, ¬ ValueThrows T rest →
      Has (update (shapeOf σ) (c, n) (some { e with key := left.key e.key })) (lengths σ) ls w₁ → (do
        let e ← readAt (c, n)
        writeAt (c, n) { e with value := left'.value e.value } : Prog (World C K V) Unit).Ends w₁ Q
        fun w' => Ordered capacity spoilt w' := by
    intro left' w₁ hno h₁
    refine ends_bind (ends_read h₁ (update_self ..) ?_)
    refine ends_write h₁ (update_self ..) fun w₂ h₂ => ?_
    exact hret w₂ _ (hfine hno) (halter.trans (alters_update _ _ _)) h₂
  refine ends_mapped (fun hmap => ?_) fun hset => ?_
  · refine ends_bind (ends_call_script hw (fun hnil => ?_) (fun w₁ left' rest' hrest h₁ => ?_)
      (fun w₁ rest' _ hspared h₁ => ?_) fun w₁ rest' hrest hcan h₁ => ?_)
    · refine hwrite _ w' ?_ ⟨rest, hw⟩
      rintro ⟨-, -, rest', hrest⟩
      rw [hnil] at hrest
      cases hrest
    · refine hwrite _ w₁ ?_ ⟨rest', h₁⟩
      rintro ⟨-, -, rest'', hrest'⟩
      rw [hrest] at hrest'
      cases hrest'
    · refine hwrite _ w₁ ?_ ⟨rest', h₁⟩
      rintro ⟨-, hcan, -⟩
      rw [hspared] at hcan
      cases hcan
    · refine ⟨_, ls, h.update (c := c) (l := keyLeft left n (σ c)) ?_ ?_, ?_⟩
      · have hsize : update (lengths σ) c (keyLeft left n (σ c)).length = lengths σ := by
          rw [length_keyLeft]
          exact update_eq_self c (lengths σ)
        rw [hsize]
        exact Has.congr ⟨rest', h₁⟩ (keyLeft_shape he)
      · rw [length_keyLeft]
        exact h.room c
      · rw [sorted_update hsorted]
        exact hlost ⟨hmap, hcan, rest', hrest⟩
  · refine hret w' _ (hfine ?_) halter ⟨rest, hw⟩
    rintro ⟨hmap, -⟩
    rw [hset] at hmap
    cases hmap

/-- STEP: the move out of an entry, with exactly what it does to the order when it throws. -/
theorem ends_moveFirst {Q : Entry K V → World C K V → Prop} (h : Rep capacity σ ls w)
    (hsorted : ∀ x, SortedBy (ls x) (σ x)) (he : (σ c)[n]? = some e)
    (hret : ∀ w' τ', ¬ SpoilsMove T (c, n) w → Alters (c, n) (shapeOf σ) τ' →
      Has τ' (lengths σ) ls w' → Q e w') :
    (moveEntry T c n).Ends w Q fun w' => Ordered capacity (SpoilsMove T (c, n) w) w' := by
  obtain ⟨script, hw⟩ := h.has
  have hspoils := spoilsMove_iff (T := T) (c := c) (n := n) hw
  -- a key whose move is not called to leave anything is unchanged
  have hkept : (∀ left rest, script ≠ .leaves left :: rest) → ∀ rest w₁,
      Holds (shapeOf σ) ⟨lengths σ, ls, rest⟩ w₁ → (do
        let e ← readAt (c, n)
        writeAt (c, n) { e with key := (⟨id, id⟩ : Left K V).key e.key } : Prog (World C K V) Unit).Ends w₁
        (fun _ w₂ => (do
          mapped T (moveValue T c n)
          pure e : Prog (World C K V) (Entry K V)).Ends w₂ Q
            fun w' => Ordered capacity (SpoilsMove T (c, n) w) w')
        fun w' => Ordered capacity (SpoilsMove T (c, n) w) w' := by
    intro hnot rest w₁ h₁
    have hno : ¬ SpoilsMove T (c, n) w := by
      rw [hspoils]
      rintro ⟨left, rest', hscript, -⟩
      exact hnot left rest' hscript
    refine ends_bind (ends_readAt h₁ he (ends_writeAt h₁ he fun w₂ h₂ => ?_))
    refine ends_bind (ends_moveValue h hsorted he h₂ (fun _ => hno) (fun _ => ?_) hret)
    have hid : keyLeft ⟨id, id⟩ n (σ c) = σ c := List.modify_id ..
    rw [hid]
    exact iff_of_true (hsorted c) hno
  refine ends_bind (ends_readAt hw he ?_)
  refine ends_bind (ends_bind (ends_call_script hw (fun hnil => ?_) (fun w₁ left rest hs h₁ => ?_)
    (fun w₁ rest hs _ h₁ => ?_) fun w₁ rest hs _ h₁ => ?_))
  · refine hkept (fun left rest hs => ?_) script w hw
    rw [hnil] at hs
    cases hs
  · refine ends_bind (ends_readAt h₁ he (ends_writeAt h₁ he fun w₂ h₂ => ?_))
    refine ends_bind (ends_moveValue h hsorted he h₂ (fun hno => ?_) (fun hthrow => ?_) hret)
    · rw [hspoils]
      rintro ⟨left', rest', hscript, hthrow, -⟩
      rw [hs] at hscript
      cases hscript
      exact hno hthrow
    · rw [hspoils]
      constructor
      · rintro hsort ⟨left', rest', hscript, -, hlost⟩
        rw [hs] at hscript
        cases hscript
        exact hlost hsort
      · intro hnone
        by_contra hlost
        exact hnone ⟨left, rest, hs, hthrow, hlost⟩
  · refine hkept (fun left' rest' hs' => ?_) rest w₁ h₁
    rw [hs] at hs'
    cases hs'
  · refine Rep.ordered ⟨⟨rest, h₁⟩, h.room, h.order⟩ hsorted ?_
    rw [hspoils]
    rintro ⟨left', rest', hs', -⟩
    rw [hs] at hs'
    cases hs'

end Metl.FlatMap
