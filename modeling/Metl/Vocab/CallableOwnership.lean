import Metl.Schemes.Ledger
import Metl.Vocab.FixedFunction

/-! What releasing a target does to the wrappers and callables of a program.

    `Contents` forgets the operation tables and the numbers of the objects: which wrappers are alive and
    which callable is where. On it, `settle` plays the script of a destructor, as long as the script
    ends only what is alive and no wrapper in the middle of a call (`busy`); `runScript` follows it. -/

namespace Metl.FixedFunction
open Metl.Schemes Metl.Schemes.Prog Function

variable {W F V : Type}

@[ext] structure Contents (W F V : Type) where
  alive : W → Bool
  held : Place W → Option (Callable F V)

def World.contents (v : World W F V) : Contents W F V :=
  ⟨v.alive, fun p => (v.object p).map Prod.fst⟩

variable {p : Place W} {dtor : Prog (World W F V) Unit}

theorem held_eq_some {v : World W F V} {x : Callable F V} :
    v.contents.held p = some x ↔ ∃ n, v.object p = some (x, n) := by
  simp [World.contents]

theorem held_eq_none {v : World W F V} : v.contents.held p = none ↔ v.object p = none := by
  simp [World.contents]

/-! ### The invariant -/

/-- The table of every wrapper is that of its target, except for the wrappers `loose` in the middle of
    a swap or an assignment; dead wrappers hold nothing; every object built is in one place or was
    destroyed once. -/
structure Inv (loose : List W) (v : World W F V) : Prop where
  ops : ∀ w, w ∉ loose → v.ops w = (v.contents.held (.target w)).map Callable.type
  dead : ∀ w, v.alive w = false → v.contents.held (.target w) = none
  ledger : Ledger (fun p => (v.object p).map Prod.snd) v.built v.gone

variable {loose : List W} {v : World W F V} {w : W} {p : Place W} {x : Callable F V}
  {Q : Unit → World W F V → Prop} {R : World W F V → Prop} {S : Prop}

theorem Inv.weaken (h : Inv loose v) (w : W) : Inv (w :: loose) v :=
  ⟨fun u hu => h.ops u fun hmem => hu (List.mem_cons_of_mem _ hmem), h.dead, h.ledger⟩

/-- A wrapper whose table is right again. -/
theorem Inv.strengthen (h : Inv (w :: loose) v)
    (hw : v.ops w = (v.contents.held (.target w)).map Callable.type) : Inv loose v where
  ops := fun u hu => by
    rcases eq_or_ne u w with rfl | hne
    · exact hw
    · exact h.ops u (by simp [hne, hu])
  dead := h.dead
  ledger := h.ledger

theorem Inv.alive (h : Inv loose v) (hw : v.contents.held (.target w) = some x) : v.alive w = true := by
  cases halive : v.alive w with
  | true => rfl
  | false =>
    rw [h.dead w halive] at hw
    cases hw

theorem ends_opsOf {Q : Option F → World W F V → Prop} (halive : v.alive w = true)
    (hQ : Q (v.ops w) v) : (opsOf w).EndsOr S v Q R := by
  simpa [EndsOr, opsOf, halive] using hQ

theorem ends_read {Q : Callable F V → World W F V → Prop} (hx : v.contents.held p = some x)
    (hQ : Q x v) : (read p).EndsOr S v Q R := by
  obtain ⟨n, hn⟩ := held_eq_some.mp hx
  simpa [EndsOr, read, hn] using hQ

theorem ends_readAs [DecidableEq F] {Q : Callable F V → World W F V → Prop} (hx : v.contents.held p = some x)
    (hQ : Q x v) : (readAs p x.type).EndsOr S v Q R := by
  refine ends_bind (ends_read hx ?_)
  rw [if_pos rfl]
  exact ends_pure hQ

/-! ### Scripts -/

/-- The places no script reaches while the wrappers `busy` are in a call. -/
def Aloof (busy : List W) : Place W → Prop
  | .target w => w ∈ busy
  | .callable _ => False
  | .incoming => True
  | .tmp => True

theorem aloof_incoming (busy : List W) : Aloof busy .incoming := trivial

theorem Aloof.cons {busy : List W} (h : Aloof busy p) (w : W) : Aloof (w :: busy) p := by
  cases p with
  | target u => exact List.mem_cons_of_mem _ h
  | callable k => exact h
  | incoming => trivial
  | tmp => trivial

variable [DecidableEq W]

namespace Contents

/-- The callable at `p` is replaced. -/
def put (A : Contents W F V) (p : Place W) (x : Option (Callable F V)) : Contents W F V :=
  { A with held := update A.held p x }

/-- The life of a wrapper begins or ends. -/
def mark (A : Contents W F V) (w : W) (b : Bool) : Contents W F V :=
  { A with alive := update A.alive w b }

@[simp] theorem put_alive (A : Contents W F V) (p : Place W) (x : Option (Callable F V)) :
    (A.put p x).alive = A.alive := rfl

@[simp] theorem put_held_self (A : Contents W F V) (p : Place W) (x : Option (Callable F V)) :
    (A.put p x).held p = x := update_self ..

variable {p : Place W} {w u : W} {A B : Contents W F V} {busy : List W} {σ : Script W}

theorem put_held_ne (A : Contents W F V) {q : Place W} (x : Option (Callable F V)) (h : q ≠ p) :
    (A.put p x).held q = A.held q := update_of_ne h ..

@[simp] theorem mark_held (A : Contents W F V) (w : W) (b : Bool) : (A.mark w b).held = A.held := rfl

@[simp] theorem mark_alive_self (A : Contents W F V) (w : W) (b : Bool) : (A.mark w b).alive w = b :=
  update_self ..

theorem mark_alive_ne (A : Contents W F V) (b : Bool) (h : u ≠ w) :
    (A.mark w b).alive u = A.alive u := update_of_ne h ..

theorem put_comm (A : Contents W F V) {q : Place W} (x y : Option (Callable F V)) (h : p ≠ q) :
    (A.put p x).put q y = (A.put q y).put p x := by
  unfold put
  rw [update_comm h]

@[simp] theorem put_put (A : Contents W F V) (p : Place W) (x y : Option (Callable F V)) :
    (A.put p x).put p y = A.put p y := by
  unfold put
  rw [update_idem]

theorem put_of_held {x : Option (Callable F V)} (h : A.held p = x) : A.put p x = A := by
  unfold put
  rw [← h, update_eq_self]

/-- The destructor's script, played on the contents; `none` where it would end something that is not
    there to be ended. A `reset()` of the destructor finds its wrapper empty. -/
def settle (busy : List W) : Script W → Contents W F V → Option (Contents W F V)
  | .done, A => some A
  | .hasValue rest, A => settle busy rest A
  | .reset _ rest, A => settle busy rest A
  | .endWrapper w inner rest, A =>
    if A.alive w = true ∧ w ∉ busy then
      (if (A.held (.target w)).isSome then settle (w :: busy) inner (A.put (.target w) none)
        else some A).bind fun B => settle busy rest (B.mark w false)
    else none
  | .endCallable k inner rest, A =>
    if (A.held (.callable k)).isSome then
      (settle busy inner (A.put (.callable k) none)).bind (settle busy rest)
    else none

/-- The target of `w` is released, if there is one. -/
def release (busy : List W) (w : W) (dtor : Script W) (A : Contents W F V) : Option (Contents W F V) :=
  if (A.held (.target w)).isSome then settle busy dtor (A.put (.target w) none) else some A

/-- STEP: a script neither looks at nor changes what stands aloof. -/
theorem settle_put (hp : Aloof busy p) (x : Option (Callable F V)) (σ : Script W) (A : Contents W F V) :
    settle busy σ (A.put p x) = (settle busy σ A).map (·.put p x) := by
  induction σ generalizing busy A with
  | done => rfl
  | hasValue rest ih => exact ih hp A
  | reset inner rest _ ih => exact ih hp A
  | endWrapper w inner rest ihInner ihRest =>
    rw [settle, settle, put_alive]
    split
    · next hw =>
      have hne : Place.target w ≠ p := by
        rintro rfl
        exact hw.2 hp
      rw [put_held_ne _ _ hne]
      split
      · rw [put_comm _ _ _ (Ne.symm hne), ihInner (hp.cons w)]
        cases settle (w :: busy) inner (A.put (.target w) none) with
        | none => rfl
        | some B => exact ihRest hp (B.mark w false)
      · exact ihRest hp (A.mark w false)
    · rfl
  | endCallable k inner rest ihInner ihRest =>
    have hne : Place.callable k ≠ p := by
      rintro rfl
      exact hp
    rw [settle, settle, put_held_ne _ _ hne]
    split
    · rw [put_comm _ _ _ (Ne.symm hne), ihInner hp]
      cases settle busy inner (A.put (.callable k) none) with
      | none => rfl
      | some B => exact ihRest hp B
    · rfl

/-- What stands aloof is what it was. -/
theorem settle_held (hp : Aloof busy p) (h : settle busy σ A = some B) : B.held p = A.held p := by
  have hput := settle_put hp (A.held p) σ A
  rw [put_of_held rfl, h] at hput
  rw [Option.some.inj hput, put_held_self]

/-- What the parts of every script do, the script does. -/
theorem settle_induct {P : List W → Contents W F V → Contents W F V → Prop}
    (refl : ∀ busy A, P busy A A) (trans : ∀ busy A B C, P busy A B → P busy B C → P busy A C)
    (callable : ∀ busy k A, P busy A (A.put (.callable k) none))
    (wrapper : ∀ busy w A B, w ∉ busy → P (w :: busy) (A.put (.target w) none) B ∨ B = A →
      P busy A (B.mark w false)) (h : settle busy σ A = some B) : P busy A B := by
  induction σ generalizing busy A B with
  | done =>
    cases h
    exact refl busy A
  | hasValue rest ih => exact ih h
  | reset inner rest _ ih => exact ih h
  | endWrapper w inner rest ihInner ihRest =>
    obtain ⟨hw, h⟩ := Option.ite_none_right_eq_some.mp h
    obtain ⟨C, hC, hrest⟩ := Option.bind_eq_some_iff.mp h
    refine trans _ _ _ _ (wrapper busy w A C hw.2 ?_) (ihRest hrest)
    split at hC
    · exact .inl (ihInner hC)
    · cases hC
      exact .inr rfl
  | endCallable k inner rest ihInner ihRest =>
    obtain ⟨-, h⟩ := Option.ite_none_right_eq_some.mp h
    obtain ⟨C, hC, hrest⟩ := Option.bind_eq_some_iff.mp h
    exact trans _ _ _ _ (trans _ _ _ _ (callable busy k A) (ihInner hC)) (ihRest hrest)

/-- The wrappers in a call stay alive. -/
theorem settle_alive (hu : u ∈ busy) (h : settle busy σ A = some B) : B.alive u = A.alive u := by
  refine settle_induct (P := fun busy A B => ∀ u ∈ busy, B.alive u = A.alive u) (fun _ _ _ _ => rfl)
    (fun _ _ _ _ hAB hBC u hu => (hBC u hu).trans (hAB u hu)) (fun _ _ _ _ _ => rfl) ?_ h u hu
  intro busy w A B hw hB u hu
  have hne : u ≠ w := by
    rintro rfl
    exact hw hu
  rw [mark_alive_ne _ _ hne]
  rcases hB with hB | rfl
  · exact hB u (List.mem_cons_of_mem _ hu)
  · rfl

theorem put_none (q : Place W) (hp : A.held p = none) : (A.put q none).held p = none := by
  rcases eq_or_ne p q with rfl | hne
  · exact put_held_self ..
  · exact (put_held_ne _ _ hne).trans hp

/-- Nothing is built. -/
theorem settle_none (h : settle busy σ A = some B) (hp : A.held p = none) : B.held p = none := by
  refine settle_induct (P := fun _ A B => A.held p = none → B.held p = none) (fun _ _ hp => hp)
    (fun _ _ _ _ hAB hBC hp => hBC (hAB hp)) (fun _ _ _ hp => put_none _ hp) ?_ h hp
  intro busy w A B _ hB hp
  rcases hB with hB | rfl
  · exact hB (put_none _ hp)
  · exact hp

theorem release_none (h : release busy w σ A = some B) (hp : A.held p = none) : B.held p = none := by
  unfold release at h
  split at h
  · next hsome =>
    have hne : p ≠ .target w := by
      rintro rfl
      rw [hp] at hsome
      cases hsome
    exact settle_none h ((put_held_ne _ _ hne).trans hp)
  · cases h
    exact hp

theorem release_put (hp : Aloof busy p) (hne : p ≠ .target w) (x : Option (Callable F V)) (σ : Script W)
    (A : Contents W F V) : release busy w σ (A.put p x) = (release busy w σ A).map (·.put p x) := by
  unfold release
  rw [put_held_ne _ _ (Ne.symm hne)]
  split
  · rw [put_comm _ _ _ hne, settle_put hp]
  · rfl

theorem release_alive (hu : u ∈ busy) (h : release busy w σ A = some B) : B.alive u = A.alive u := by
  unfold release at h
  split at h
  · have halive := settle_alive hu h
    exact halive
  · cases h
    rfl

theorem release_held (hp : Aloof busy p) (hne : p ≠ .target w) (h : release busy w σ A = some B) :
    B.held p = A.held p := by
  unfold release at h
  split at h
  · rw [settle_held hp h, put_held_ne _ _ hne]
  · cases h
    rfl

/-- The wrapper is empty afterwards. -/
theorem release_empty (hw : w ∈ busy) (h : release busy w σ A = some B) : B.held (.target w) = none := by
  unfold release at h
  split at h
  · rw [settle_held (p := .target w) hw h, put_held_self]
  · next hnone =>
    cases h
    simpa using hnone

end Contents

/-! ### The primitives -/

/-- STEP: the table of a wrapper in the middle of a call changes. -/
theorem ends_setOps {ops : Option F} (h : Inv (w :: loose) v) (halive : v.alive w = true)
    (hQ : ∀ v', Inv (w :: loose) v' → v'.contents = v.contents →
      v'.ops = update v.ops w ops → Q () v') : (setOps w ops).EndsOr S v Q R := by
  rw [EndsOr, setOps, if_pos halive]
  refine hQ _ ⟨?_, h.dead, h.ledger⟩ rfl rfl
  intro u hu
  have hne : u ≠ w := fun heq => hu (heq ▸ List.mem_cons_self ..)
  exact (update_of_ne hne ..).trans (h.ops u hu)

section

variable (h : Inv loose v)
include h

/-- STEP: the object in a place changes, whose wrapper is in the middle of a call or keeps its table. -/
theorem Inv.change {v' : World W F V} {o : Option (Callable F V × ℕ)} (halive : v'.alive = v.alive)
    (hops : v'.ops = v.ops) (hobject : v'.object = update v.object p o)
    (htable : ∀ w, p = .target w → w ∉ loose → v.ops w = (o.map Prod.fst).map Callable.type)
    (hdead : ∀ w, p = .target w → v.alive w = false → o = none)
    (hledger : Ledger (update (fun q => (v.object q).map Prod.snd) p (o.map Prod.snd)) v'.built v'.gone)
    (hQ : Inv loose v' → v'.contents = v.contents.put p (o.map Prod.fst) → Q () v') : Q () v' := by
  have hheld : v'.contents.held = (v.contents.put p (o.map Prod.fst)).held := by
    funext q
    rw [World.contents, hobject]
    exact apply_update (fun _ => Option.map Prod.fst) v.object p o q
  have hnumbers : (fun q => (v'.object q).map Prod.snd) =
      update (fun q => (v.object q).map Prod.snd) p (o.map Prod.snd) := by
    funext q
    rw [hobject]
    exact apply_update (fun _ => Option.map Prod.snd) v.object p o q
  refine hQ ⟨fun w hw => ?_, fun w hw => ?_, by rwa [hnumbers]⟩ (Contents.ext halive hheld)
  · rw [hops, hheld]
    rcases eq_or_ne (Place.target w) p with rfl | hne
    · rw [Contents.put_held_self, htable w rfl hw]
    · rw [Contents.put_held_ne _ _ hne, h.ops w hw]
  · rw [halive] at hw
    rw [hheld]
    rcases eq_or_ne (Place.target w) p with rfl | hne
    · rw [Contents.put_held_self, hdead w rfl hw, Option.map_none]
    · rw [Contents.put_held_ne _ _ hne, h.dead w hw]

/-- STEP: an object is built in an empty place. -/
theorem ends_build (husable : v.usable p = true) (hnone : v.contents.held p = none)
    (hp : ∀ w, p = .target w → w ∈ loose)
    (hQ : ∀ v', Inv loose v' → v'.contents = v.contents.put p (some x) → v'.ops = v.ops → Q () v') :
    (build p x).EndsOr S v Q R := by
  have hobject := held_eq_none.mp hnone
  have hcond : v.usable p = true ∧ v.object p = none := ⟨husable, hobject⟩
  rw [EndsOr, build, if_pos hcond]
  refine h.change rfl rfl rfl (fun w hw hnot => absurd (hp w hw) hnot) ?_
    (h.ledger.build (by rw [hobject]; rfl)) fun hinv hc => hQ _ hinv hc rfl
  rintro w rfl hw
  exact absurd (husable.symm.trans hw) (by decide)

/-- STEP: an object takes another value of its type. -/
theorem ends_setValue {y : Callable F V} (hx : v.contents.held p = some x) (htype : y.type = x.type)
    (hQ : ∀ v', Inv loose v' → v'.contents = v.contents.put p (some y) → v'.ops = v.ops → Q () v') :
    (setValue p y).EndsOr S v Q R := by
  obtain ⟨n, hn⟩ := held_eq_some.mp hx
  rw [EndsOr, setValue, hn]
  refine h.change rfl rfl rfl ?_ ?_ ?_ fun hinv hc => hQ _ hinv hc rfl
  · rintro w rfl hw
    rw [h.ops w hw, hx, Option.map_some, Option.map_some, Option.map_some, htype]
  · rintro w rfl hw
    rw [h.dead w hw] at hx
    cases hx
  · rw [update_eq_self_iff.mpr (by rw [hn]; rfl)]
    exact h.ledger

/-- STEP: the life of an object ends. -/
theorem ends_endLife (hx : v.contents.held p = some x) (hp : ∀ w, p = .target w → w ∈ loose)
    (hQ : ∀ v', Inv loose v' → v'.contents = v.contents.put p none → v'.ops = v.ops → Q () v') :
    (endLife p).EndsOr S v Q R := by
  obtain ⟨n, hn⟩ := held_eq_some.mp hx
  rw [EndsOr, endLife, hn]
  exact h.change rfl rfl rfl (fun w hw hnot => absurd (hp w hw) hnot) (fun _ _ _ => rfl)
    (h.ledger.destroy (by rw [hn]; rfl)) fun hinv hc => hQ _ hinv hc rfl

/-- STEP: an empty wrapper goes. -/
theorem ends_endWrapper (halive : v.alive w = true) (hnone : v.contents.held (.target w) = none)
    (hQ : ∀ v', Inv loose v' → v'.contents = v.contents.mark w false → v'.ops = v.ops → Q () v') :
    (endWrapper w).EndsOr S v Q R := by
  rw [EndsOr, endWrapper, if_pos halive]
  refine hQ _ ⟨h.ops, ?_, h.ledger⟩ rfl rfl
  intro u hu
  rcases eq_or_ne u w with rfl | hne
  · exact hnone
  · exact h.dead u ((update_of_ne hne ..).symm.trans hu)

/-- STEP: an empty wrapper comes. -/
theorem ends_beginWrapper (hdead : v.alive w = false)
    (hQ : ∀ v', Inv loose v' → v'.contents = v.contents.mark w true →
      v'.ops = update v.ops w none → Q () v') : (beginWrapper w).EndsOr S v Q R := by
  rw [EndsOr, beginWrapper, if_neg (by rw [hdead]; decide)]
  refine hQ _ ⟨?_, ?_, h.ledger⟩ rfl rfl
  · intro u hu
    rcases eq_or_ne u w with rfl | hne
    · have hnone := h.dead u hdead
      change update v.ops u none u = (v.contents.held (.target u)).map Callable.type
      rw [hnone, update_self]
      rfl
    · exact (update_of_ne hne ..).trans (h.ops u hu)
  · intro u hu
    rcases eq_or_ne u w with rfl | hne
    · exact absurd ((update_self ..).symm.trans hu) (by decide)
    · exact h.dead u ((update_of_ne hne ..).symm.trans hu)

end

variable [DecidableEq F]

theorem ends_copyObject {source destination : Place W} (h : Inv loose v)
    (hx : v.contents.held source = some x) (husable : v.usable destination = true)
    (hnone : v.contents.held destination = none) (hdest : ∀ w, destination = .target w → w ∈ loose)
    (hQ : ∀ v', Inv loose v' → v'.contents = v.contents.put destination (some x) →
      v'.ops = v.ops → Q () v') : (copyObject x.type destination source).EndsOr S v Q R :=
  ends_bind (ends_readAs hx (ends_build h husable hnone hdest hQ))

theorem ends_moveObject {source destination : Place W} {left : V × Bool} (h : Inv loose v)
    (hx : v.contents.held source = some x) (husable : v.usable destination = true)
    (hnone : v.contents.held destination = none) (hdest : ∀ w, destination = .target w → w ∈ loose)
    (hQ : ∀ v', Inv loose v' → v'.contents =
      (v.contents.put destination (some x)).put source (some (x.moved left)) →
      v'.ops = v.ops → Q () v') : (moveObject x.type destination source left).EndsOr S v Q R := by
  have hne : source ≠ destination := by
    rintro rfl
    rw [hnone] at hx
    cases hx
  refine ends_bind (ends_readAs hx (ends_bind (ends_build h husable hnone hdest ?_)))
  intro v1 h1 hc1 ho1
  have hx1 : v1.contents.held source = some x := by
    rw [hc1, Contents.put_held_ne _ _ hne, hx]
  refine ends_setValue h1 hx1 rfl ?_
  intro v2 h2 hc2 ho2
  exact hQ v2 h2 (by rw [hc2, hc1]) (ho2.trans ho1)

theorem ends_destroyObject (h : Inv loose v) (hx : v.contents.held p = some x)
    (hp : ∀ w, p = .target w → w ∈ loose)
    (hdtor : ∀ v', Inv loose v' → v'.contents = v.contents.put p none → v'.ops = v.ops →
      dtor.EndsOr S v' Q R) : (destroyObject x.type p dtor).EndsOr S v Q R :=
  ends_bind (ends_readAs hx (ends_bind (ends_endLife h hx hp hdtor)))

/-- `reset()` empties the wrapper before the destructor runs. -/
theorem ends_resetBy (h : Inv loose v) (hw : w ∉ loose) (halive : v.alive w = true)
    (hnone : v.contents.held (.target w) = none → Q () v)
    (hsome : ∀ v', (v.contents.held (.target w)).isSome = true → Inv loose v' →
      v'.contents = v.contents.put (.target w) none → v'.ops = update v.ops w none →
      dtor.EndsOr S v' Q R) : (resetBy w dtor).EndsOr S v Q R := by
  refine ends_bind (ends_opsOf halive ?_)
  rw [h.ops w hw]
  cases hx : v.contents.held (.target w) with
  | none => exact ends_pure (hnone hx)
  | some x =>
    refine ends_bind (ends_setOps (h.weaken w) halive ?_)
    intro v1 h1 hc1 ho1
    refine ends_destroyObject h1 (by rw [hc1, hx]) (by simp) ?_
    intro v2 h2 hc2 ho2
    rw [hc1] at hc2
    refine hsome v2 (by rw [hx]; rfl) (h2.strengthen ?_) hc2 (ho2.trans ho1)
    rw [hc2, ho2, ho1, update_self, Contents.put_held_self]
    rfl

/-! ### Destructors -/

/-- The destructor calls `reset()` on the wrapper of its object. -/
def Script.resets : Script W → Bool
  | .done => false
  | .hasValue rest => rest.resets
  | .reset _ _ => true
  | .endWrapper _ _ rest => rest.resets
  | .endCallable _ _ rest => rest.resets

/-- The wrappers in a call are as they were. -/
def Kept (busy : List W) (v v' : World W F V) : Prop :=
  ∀ w ∈ busy, v'.ops w = v.ops w ∧ v'.alive w = v.alive w

/-- The wrapper of an object whose destructor runs is in a call, and empty if the destructor resets
    it. -/
def Owned (busy : List W) (σ : Script W) (v : World W F V) (own : Option W) : Prop :=
  ∀ w, own = some w → w ∈ busy ∧ v.alive w = true ∧ (σ.resets = true → v.ops w = none)

/-- The wrapper of an object whose destructor runs is in a call; if the destructor resets it, its table
    or its target is gone. -/
def Attended (busy : List W) (σ : Script W) (v : World W F V) (own : Option W) : Prop :=
  ∀ w, own = some w → w ∈ busy ∧ v.alive w = true ∧
    (σ.resets = true → v.ops w = none ∨ v.contents.held (.target w) = none)

/-- A destructor resets its wrapper while the table is still set. -/
def Stale (σ : Script W) (v : World W F V) (own : Option W) : Prop :=
  ∃ w, own = some w ∧ v.ops w ≠ none ∧ σ.resets = true

variable {busy : List W} {σ : Script W} {v' : World W F V} {own : Option W} {B : Contents W F V}

omit [DecidableEq W] [DecidableEq F] in
theorem Kept.trans {v'' : World W F V} (h : Kept busy v v') (h' : Kept busy v' v'') : Kept busy v v'' :=
  fun w hw => ⟨(h' w hw).1.trans (h w hw).1, (h' w hw).2.trans (h w hw).2⟩

omit [DecidableEq W] [DecidableEq F] in
theorem Owned.attended (h : Owned busy σ v own) : Attended busy σ v own := fun w hw =>
  ⟨(h w hw).1, (h w hw).2.1, fun hres => .inl ((h w hw).2.2 hres)⟩

omit [DecidableEq W] [DecidableEq F] in
theorem Owned.not_stale (h : Owned busy σ v own) : ¬Stale σ v own := by
  rintro ⟨w, hw, hops, hres⟩
  exact hops ((h w hw).2.2 hres)

omit [DecidableEq W] [DecidableEq F] in
theorem Attended.kept {σ' : Script W} (h : Attended busy σ v own) (hk : Kept busy v v')
    (hheld : ∀ w, v.contents.held (.target w) = none → v'.contents.held (.target w) = none)
    (hσ : σ'.resets = true → σ.resets = true) : Attended busy σ' v' own := by
  intro w hw
  obtain ⟨hmem, halive, hops⟩ := h w hw
  obtain ⟨hops', halive'⟩ := hk w hmem
  exact ⟨hmem, halive'.trans halive, fun hres => (hops (hσ hres)).imp hops'.trans (hheld w)⟩

omit [DecidableEq W] [DecidableEq F] in
theorem Attended.stale_iff {σ' : Script W} (h : Attended busy σ v own) (hk : Kept busy v v')
    (hσ : σ'.resets = σ.resets) : Stale σ' v' own ↔ Stale σ v own := by
  refine exists_congr fun w => and_congr_right fun hw => ?_
  rw [(hk w (h w hw).1).1, hσ]

/-- Destroying what is not there. -/
theorem destroyObject_dead {f : F} (hnone : v.contents.held p = none) :
    destroyObject f p dtor v = .undefined := by
  refine bind_undefined (bind_undefined ?_)
  rw [read, held_eq_none.mp hnone]

/-- Releasing a target, given that its destructor follows its script. -/
theorem ends_reset_of (h : Inv loose v) (hw : w ∉ loose)
    (halive : v.alive w = true) (hrelease : v.contents.release (w :: busy) w σ = some B)
    (hscript : ∀ v1 : World W F V, Inv loose v1 → v1.contents.settle (w :: busy) σ = some B →
      Owned (w :: busy) σ v1 (some w) → (runScript (some w) σ).EndsOr S v1
        (fun _ v2 => Inv loose v2 ∧ v2.contents = B ∧ Kept (w :: busy) v1 v2) R) : (reset w σ).EndsOr S v
      (fun _ v' => Inv loose v' ∧ v'.contents = B ∧ (w ∉ busy → Kept busy v v')) R := by
  refine ends_resetBy h hw halive ?_ ?_
  · intro hnone
    rw [Contents.release, hnone] at hrelease
    cases hrelease
    exact ⟨h, rfl, fun _ u _ => ⟨rfl, rfl⟩⟩
  · intro v1 hsome h1 hc1 ho1
    have halive1 : v1.alive = v.alive := congrArg Contents.alive hc1
    rw [Contents.release, if_pos hsome, ← hc1] at hrelease
    refine (hscript v1 h1 hrelease ?_).imp ?_
    · rintro u ⟨⟩
      exact ⟨List.mem_cons_self .., halive1 ▸ halive, fun _ => ho1 ▸ update_self ..⟩
    · rintro _ v2 ⟨h2, hc2, hk2⟩
      refine ⟨h2, hc2, fun hbusy u hu => ?_⟩
      obtain ⟨hops, halive2⟩ := hk2 u (List.mem_cons_of_mem _ hu)
      have hne : u ≠ w := fun heq => hbusy (heq ▸ hu)
      rw [hops, halive2, ho1, halive1, update_of_ne hne]
      exact ⟨rfl, rfl⟩

/-- RUN: a destructor does what its script does to the contents, and nothing to the wrappers in a
    call; one that resets its wrapper while the table is set destroys its object twice. The induction is
    on the script; `inner` runs with one wrapper more in a call. -/
theorem runScript_meets (h : Inv loose v) (hsub : ∀ u ∈ loose, u ∈ busy)
    (hsettle : v.contents.settle busy σ = some B) (hown : Attended busy σ v own) :
    (runScript own σ).Meets (Stale σ v own) False v
      (fun _ v' => Inv loose v' ∧ v'.contents = B ∧ Kept busy v v') := by
  induction σ generalizing busy own v B with
  | done =>
    cases hsettle
    refine (ends_pure ⟨h, rfl, fun u _ => ⟨rfl, rfl⟩⟩).meets ?_
    rintro ⟨w, -, -, hres⟩
    cases hres
  | hasValue rest ih =>
    have hrest := ih h hsub hsettle hown
    cases own with
    | none => exact hrest
    | some w =>
      have hread : (opsOf w).Ends v (fun _ v' => v = v') fun _ => False := ends_opsOf (hown w rfl).2.1 rfl
      refine hread.bind_meets ?_
      rintro _ _ rfl
      exact hrest
  | reset inner rest _ ih =>
    have hrest := ih h hsub hsettle (hown.kept (fun u _ => ⟨rfl, rfl⟩) (fun _ => id) fun _ => rfl)
    cases own with
    | none =>
      refine (hrest.ends ?_).meets ?_ <;> rintro ⟨w, hw, -⟩ <;> cases hw
    | some w =>
      obtain ⟨-, halive, hgone⟩ := hown w rfl
      cases hops : v.ops w with
      | none =>
        have hgood : ∀ σ', ¬Stale σ' v (some w) := by
          rintro σ' ⟨u, hu, hne, -⟩
          cases hu
          exact hne hops
        have hreset : (resetBy w (runScript (some w) inner)).Ends v (fun _ v' => v = v')
            fun _ => False := by
          refine ends_bind (ends_opsOf halive ?_)
          rw [hops]
          exact ends_pure rfl
        refine hreset.bind_meets ?_
        rintro _ _ rfl
        exact (hrest.ends (hgood _)).meets (hgood _)
      | some f =>
        have hnone := (hgone rfl).resolve_left (by rw [hops]; simp)
        have hread : (opsOf w).Ends v (fun o v' => o = v.ops w ∧ v = v') fun _ => False :=
          ends_opsOf halive ⟨rfl, rfl⟩
        have hclear : (setOps w none).Ends v (fun _ v' => v'.contents = v.contents) fun _ => False :=
          ends_setOps (h.weaken w) halive fun _ _ hc _ => hc
        refine meets_undefined (bind_undefined (hread.bind_undefined ?_)) ⟨w, rfl, by simp [hops], rfl⟩
        rintro _ _ ⟨rfl, rfl⟩
        rw [hops]
        exact hclear.bind_undefined fun _ v' hc => destroyObject_dead (hc ▸ hnone)
  | endWrapper w inner rest ihInner ihRest =>
    obtain ⟨⟨halive, hbusy⟩, hsettle⟩ := Option.ite_none_right_eq_some.mp hsettle
    obtain ⟨C, hC, hsettle⟩ := Option.bind_eq_some_iff.mp hsettle
    have hrelease : v.contents.release (w :: busy) w inner = some C := hC
    have hreset : (resetBy w (runScript (some w) inner)).Ends v _ fun _ => False :=
      ends_reset_of h (fun hmem => hbusy (hsub w hmem)) halive hrelease fun v1 h1 hs1 ho1 =>
        (ihInner h1 (fun u hu => List.mem_cons_of_mem _ (hsub u hu)) hs1 ho1.attended).ends ho1.not_stale
    refine hreset.bind_meets ?_
    rintro _ v2 ⟨h2, rfl, hk2⟩
    have hend : (endWrapper w).Ends v2 (fun _ v3 => Inv loose v3 ∧
        v3.contents = v2.contents.mark w false ∧ v3.ops = v2.ops) fun _ => False :=
      ends_endWrapper h2 ((Contents.release_alive (List.mem_cons_self ..) hrelease).trans halive)
        (Contents.release_empty (List.mem_cons_self ..) hrelease) fun _ h3 hc3 ho3 => ⟨h3, hc3, ho3⟩
    refine hend.bind_meets ?_
    rintro _ v3 ⟨h3, hc3, ho3⟩
    have hk3 : Kept busy v v3 := by
      refine (hk2 hbusy).trans fun u hu => ⟨congrFun ho3 u, ?_⟩
      have hne : u ≠ w := fun heq => hbusy (heq ▸ hu)
      exact (congrFun (congrArg Contents.alive hc3) u).trans (update_of_ne hne ..)
    have hnone3 : ∀ u, v.contents.held (.target u) = none → v3.contents.held (.target u) = none := by
      intro u hu
      rw [hc3, Contents.mark_held, Contents.release_none hrelease hu]
    rw [← hown.stale_iff hk3 rfl]
    refine (ihRest h3 hsub (by rw [hc3, hsettle]) (hown.kept hk3 hnone3 id)).imp ?_
    rintro _ v4 ⟨h4, hc4, hk4⟩
    exact ⟨h4, hc4, hk3.trans hk4⟩
  | endCallable k inner rest ihInner ihRest =>
    obtain ⟨hsome, hsettle⟩ := Option.ite_none_right_eq_some.mp hsettle
    obtain ⟨x, hx⟩ := Option.isSome_iff_exists.mp hsome
    obtain ⟨C, hC, hsettle⟩ := Option.bind_eq_some_iff.mp hsettle
    have hend : (endLife (.callable k)).Ends v (fun _ v1 => Inv loose v1 ∧
        v1.contents = v.contents.put (.callable k) none ∧ v1.ops = v.ops) fun _ => False :=
      ends_endLife h hx (by simp) fun _ h1 hc1 ho1 => ⟨h1, hc1, ho1⟩
    refine hend.bind_meets ?_
    rintro _ v1 ⟨h1, hc1, ho1⟩
    have hk1 : Kept busy v v1 := fun u _ => ⟨congrFun ho1 u, congrFun (congrArg Contents.alive hc1) u⟩
    have hown1 : Owned busy inner v1 (none : Option W) := by
      rintro u ⟨⟩
    have hinner : (runScript none inner).Ends v1 _ fun _ => False :=
      (ihInner h1 hsub (by rw [hc1, hC]) hown1.attended).ends hown1.not_stale
    refine hinner.bind_meets ?_
    rintro _ v2 ⟨h2, rfl, hk2⟩
    have hk := hk1.trans hk2
    have hnone2 : ∀ u, v.contents.held (.target u) = none → v2.contents.held (.target u) = none :=
      fun u hu => Contents.settle_none hC (Contents.put_none _ hu)
    rw [← hown.stale_iff hk rfl]
    refine (ihRest h2 hsub hsettle (hown.kept hk hnone2 id)).imp ?_
    rintro _ v3 ⟨h3, hc3, hk3⟩
    exact ⟨h3, hc3, hk.trans hk3⟩

theorem ends_runScript (h : Inv loose v) (hsub : ∀ u ∈ loose, u ∈ busy)
    (hsettle : v.contents.settle busy σ = some B) (hown : Owned busy σ v own) :
    (runScript own σ).EndsOr S v (fun _ v' => Inv loose v' ∧ v'.contents = B ∧ Kept busy v v') R :=
  ((runScript_meets h hsub hsettle hown.attended).ends hown.not_stale).conseq False.elim
    (fun _ _ => id) fun _ => False.elim

/-- `reset()` releases the target. -/
theorem ends_reset (h : Inv loose v) (hsub : ∀ u ∈ loose, u ∈ busy) (hw : w ∉ loose)
    (halive : v.alive w = true) (hrelease : v.contents.release (w :: busy) w σ = some B) :
    (reset w σ).EndsOr S v (fun _ v' => Inv loose v' ∧ v'.contents = B ∧ (w ∉ busy → Kept busy v v')) R :=
  ends_reset_of h hw halive hrelease fun _ h1 hs1 ho1 =>
    ends_runScript h1 (fun u hu => List.mem_cons_of_mem _ (hsub u hu)) hs1 ho1

end Metl.FixedFunction
