import Metl.Schemes.Run
import Metl.Vocab.CallableOwnership

/-! What assignments, moves and swaps of callables leave behind.

    `act` says what a call does to the contents, whatever the destructors it runs end on the way; it is
    `none` where the program uses a wrapper or a callable that is not there. The calls follow it, with
    two exceptions: an assignment from a wrapper that goes with the old target, and a swap of a target
    whose destructor resets its wrapper after it was moved from. `safe` excludes exactly these. -/

namespace Metl.FixedFunction
open Metl.Schemes Metl.Schemes.Prog

variable {W F V : Type} [DecidableEq W]

/-- `METL_HARDEN(function != nullptr)` fails. -/
def Traits.hardens (t : Traits F) (x : Callable F V) : Bool := t.isPointer x.type && x.null

/-- A METL wrapper without a target: what takes it becomes empty. -/
def Traits.vacant (t : Traits F) (x : Callable F V) : Bool := t.isWrapper x.type && x.null

/-- The callable is too large. -/
def Traits.refuses (t : Traits F) (x : Callable F V) : Bool :=
  !t.vacant x && decide (t.capacity < t.size x.type)

/-- What a wrapper holds that took in `x`. -/
def Traits.denoted (t : Traits F) (x : Callable F V) : Option (Callable F V) :=
  if t.vacant x then none else some x

namespace Contents

/-- The source after it was copied or moved from. -/
def taken (A : Contents W F V) (source : Place W) (x : Callable F V) : Forward V → Contents W F V
  | .copy => A
  | .move left => A.put source (some (x.moved left))

/-- A wrapper takes in the callable `x`. -/
def store (t : Traits F) (A : Contents W F V) (self : W) (source : Place W) (forward : Forward V)
    (dtor incomingDtor : Script W) (x : Callable F V) : Option (Contents W F V) :=
  if t.vacant x then A.release [self] self dtor
  else ((A.taken source x forward).release [self] self dtor).bind fun B =>
    (B.put (.target self) (some x)).settle [self] incomingDtor

/-- The script runs if there is an object to destroy. -/
def settleIf (b : Bool) (busy : List W) (σ : Script W) (A : Contents W F V) : Option (Contents W F V) :=
  if b then A.settle busy σ else some A

/-- The two targets change places. -/
def exchange (A : Contents W F V) (self other : W) : Contents W F V :=
  (A.put (.target self) (A.held (.target other))).put (.target other) (A.held (.target self))

/-- What a call does; `none` if the program may not make it. -/
def act (t : Traits F) (A : Contents W F V) : Call W F V → Option (Contents W F V × Option Bool)
  | .create k x =>
    if (A.held (.callable k)).isNone then some (A.put (.callable k) (some x), none) else none
  | .discard k dtor =>
    if (A.held (.callable k)).isSome then
      ((A.put (.callable k) none).settle [] dtor).map fun B => (B, none)
    else none
  | .default self => if A.alive self then none else some (A.mark self true, none)
  | .construct self source forward incomingDtor =>
    if A.alive self then none
    else (A.held source).bind fun x =>
      ((A.mark self true).store t self source forward .done incomingDtor x).map fun B => (B, none)
  | .copyConstruct self other =>
    if t.copyable && !A.alive self && A.alive other then
      some ((A.mark self true).put (.target self) (A.held (.target other)), none)
    else none
  | .moveConstruct self other _ dtor =>
    if !A.alive self && A.alive other then
      (((A.mark self true).put (.target self) (A.held (.target other))).release [other, self] other
        dtor).map fun B => (B, none)
    else none
  | .tryAssign self source forward dtor incomingDtor =>
    if A.alive self then
      (A.held source).bind fun x =>
        if t.refuses x then some (A, some false)
        else (A.store t self source forward dtor incomingDtor x).map fun B => (B, some true)
    else none
  | .assign self source forward dtor incomingDtor =>
    if A.alive self then
      (A.held source).bind fun x =>
        (A.store t self source forward dtor incomingDtor x).map fun B => (B, none)
    else none
  | .copyAssign self other dtor =>
    if t.copyable && A.alive self && A.alive other then
      if self = other then some (A, none)
      else (A.release [self] self dtor).map fun B =>
        (B.put (.target self) (A.held (.target other)), none)
    else none
  | .moveAssign self other _ dtor otherDtor =>
    if A.alive self && A.alive other then
      if self = other then some (A, none)
      else (A.release [self] self dtor).bind fun B =>
        ((B.put (.target self) (A.held (.target other))).release [other, self] other otherDtor).map
          fun C => (C, none)
    else none
  | .swap self other _ dtor otherDtor tmpDtor =>
    if A.alive self && A.alive other then
      if self = other then some (A, none)
      else
        ((A.exchange self other).settleIf (A.held (.target self)).isSome [self, other] dtor).bind
          fun B => (B.settleIf (A.held (.target other)).isSome [self, other] otherDtor).bind
          fun C => (C.settleIf ((A.held (.target self)).isSome && (A.held (.target other)).isSome)
            [self, other] tmpDtor).map fun D => (D, none)
    else none
  | .reset self dtor =>
    if A.alive self then (A.release [self] self dtor).map fun B => (B, none) else none
  | .destruct self dtor =>
    if A.alive self then (A.release [self] self dtor).map fun B => (B.mark self false, none)
    else none

/-- The call keeps clear of the two slips: the source of an assignment from a wrapper outlives the old
    target, and a target moved out by a swap does not reset its wrapper. -/
def safe (A : Contents W F V) : Call W F V → Bool
  | .copyAssign self other dtor =>
    decide (self = other) || (A.held (.target other)).isNone ||
      (A.release [self] self dtor).all fun B => B.alive other
  | .moveAssign self other _ dtor _ =>
    decide (self = other) || (A.held (.target other)).isNone ||
      (A.release [self] self dtor).all fun B => B.alive other
  | .swap self other _ dtor otherDtor _ =>
    decide (self = other) || (((A.held (.target self)).isNone || !dtor.resets) &&
      ((A.held (.target other)).isNone || !otherDtor.resets))
  | _ => true

/-- A check of the library ends the program. -/
def stops (t : Traits F) (A : Contents W F V) : Call W F V → Bool
  | .construct _ source _ _ => (A.held source).any fun x => t.hardens x || t.refuses x
  | .assign _ source _ _ _ => (A.held source).any fun x => t.hardens x || t.refuses x
  | .tryAssign _ source _ _ _ => (A.held source).any t.hardens
  | _ => false

/-! ### What `act` delivers -/

/-- The destination of an assignment or construction holds what the source denoted before the call, a
    wrapper moved from is empty, a swap exchanges the targets, a refusal changes nothing. -/
def Delivers (t : Traits F) (A B : Contents W F V) (answer : Option Bool) : Call W F V → Prop
  | .construct self source _ _ =>
    B.held (.target self) = (A.held source).bind t.denoted
  | .copyConstruct self other =>
    B.held (.target self) = A.held (.target other) ∧ B.held (.target other) = A.held (.target other)
  | .moveConstruct self other _ _ =>
    B.held (.target self) = A.held (.target other) ∧ B.held (.target other) = none
  | .tryAssign self source _ _ _ =>
    (answer = some true ∧ B.held (.target self) = (A.held source).bind t.denoted) ∨
      (answer = some false ∧ B = A ∧ (A.held source).any t.refuses = true)
  | .assign self source _ _ _ =>
    B.held (.target self) = (A.held source).bind t.denoted
  | .copyAssign self other _ => B.held (.target self) = A.held (.target other)
  | .moveAssign self other _ _ _ =>
    B.held (.target self) = A.held (.target other) ∧ (self ≠ other → B.held (.target other) = none)
  | .swap self other _ _ _ _ =>
    B.held (.target self) = A.held (.target other) ∧ B.held (.target other) = A.held (.target self)
  | .reset self _ => B.held (.target self) = none
  | .destruct self _ => B.alive self = false ∧ B.held (.target self) = none
  | .create k x => B.held (.callable k) = some x
  | .discard _ _ => True
  | .default self => B.alive self = true

variable {t : Traits F} {A B : Contents W F V} {self other : W}

variable {b : Bool} {busy : List W} {σ dtor incomingDtor : Script W} {p source : Place W}
  {forward : Forward V} {x : Callable F V}

theorem taken_alive (A : Contents W F V) (source : Place W) (x : Callable F V)
    (forward : Forward V) : (A.taken source x forward).alive = A.alive := by
  cases forward <;> rfl

theorem taken_held_incoming (hx : A.held source = some x) (hnone : A.held .incoming = none) :
    (A.taken source x forward).held .incoming = none := by
  cases forward with
  | copy => exact hnone
  | move left =>
    have hne : Place.incoming ≠ source := by
      rintro rfl
      rw [hnone] at hx
      cases hx
    exact (put_held_ne _ _ hne).trans hnone

/-- A target moved from is released like any other. -/
theorem release_moved {y : Callable F V} (h : (A.held (.target self)).isSome = true) :
    (A.put (.target self) (some y)).release busy self σ = A.release busy self σ := by
  unfold release
  rw [put_held_self, put_put, h]
  rfl

end Contents

/-! ### The parts of the calls -/

variable [DecidableEq F] {loose busy : List W} {v : World W F V} {self other w : W}
  {x y : Callable F V} {left : V × Bool} {σ : Script W} {B : Contents W F V}
  {Q : Unit → World W F V → Prop} {R : World W F V → Prop} {S : Prop}

omit [DecidableEq W] [DecidableEq F] in
theorem ends_tableOf {Q : F → World W F V → Prop} (h : Inv loose v) (hw : w ∉ loose)
    (hx : v.contents.held (.target w) = some x) (hQ : Q x.type v) : (tableOf w).EndsOr S v Q R := by
  refine ends_bind (ends_opsOf (h.alive hx) ?_)
  rw [h.ops w hw, hx]
  exact ends_pure hQ

omit [DecidableEq F] in
/-- What follows a transfer of the target of `other` to `self`: `ops_ = other.ops_;` -/
theorem ends_takeOps (h : Inv (self :: loose) v) (hother : other ∉ self :: loose)
    (halive : v.alive self = true) (hx : v.contents.held (.target self) = some x)
    (hy : v.contents.held (.target other) = some y) (htype : y.type = x.type)
    (hQ : ∀ v', Inv loose v' → v'.contents = v.contents → Q () v') :
    (opsOf other >>= setOps self).EndsOr S v Q R := by
  refine ends_bind (ends_opsOf (h.alive hy) (ends_setOps h halive ?_))
  intro v' h' hc' ho'
  refine hQ v' (h'.strengthen ?_) hc'
  rw [ho', Function.update_self, h.ops other hother, hy, hc', hx, Option.map_some, Option.map_some, htype]

theorem ends_copyTarget (h : Inv (self :: loose) v) (hother : other ∉ self :: loose)
    (halive : v.alive self = true) (hx : v.contents.held (.target other) = some x)
    (hnone : v.contents.held (.target self) = none)
    (hQ : ∀ v', Inv loose v' → v'.contents = v.contents.put (.target self) (some x) → Q () v') :
    (copyTarget self other).EndsOr S v Q R := by
  have hne : other ≠ self := fun heq => hother (heq ▸ List.mem_cons_self ..)
  refine ends_bind (ends_tableOf h hother hx (ends_bind (ends_copyObject h hx halive hnone ?_ ?_)))
  · rintro u ⟨⟩
    exact List.mem_cons_self ..
  · intro v1 h1 hc1 _
    refine ends_takeOps h1 hother ((congrFun (congrArg Contents.alive hc1) self).trans halive)
      (by rw [hc1, Contents.put_held_self])
      (by rw [hc1, Contents.put_held_ne _ _ (by simpa using hne), hx]) rfl ?_
    exact fun v2 h2 hc2 => hQ v2 h2 (hc2.trans hc1)

theorem ends_moveTarget (h : Inv (self :: loose) v) (hother : other ∉ self :: loose)
    (halive : v.alive self = true) (hx : v.contents.held (.target other) = some x)
    (hnone : v.contents.held (.target self) = none) (hQ : ∀ v', Inv loose v' → v'.contents =
      (v.contents.put (.target self) (some x)).put (.target other) (some (x.moved left)) → Q () v') :
    (moveTarget self other left).EndsOr S v Q R := by
  have hne : self ≠ other := fun heq => hother (heq ▸ List.mem_cons_self ..)
  refine ends_bind (ends_tableOf h hother hx (ends_bind (ends_moveObject h hx halive hnone ?_ ?_)))
  · rintro u ⟨⟩
    exact List.mem_cons_self ..
  · intro v1 h1 hc1 _
    have hself1 : v1.contents.held (.target self) = some x := by
      rw [hc1, Contents.put_held_ne _ _ (by simpa using hne), Contents.put_held_self]
    exact ends_takeOps h1 hother ((congrFun (congrArg Contents.alive hc1) self).trans halive) hself1
      (y := x.moved left) (by rw [hc1, Contents.put_held_self]) rfl
      fun v2 h2 hc2 => hQ v2 h2 (hc2.trans hc1)

/-- Between two calls nothing is in the middle of anything. -/
structure Sound (v : World W F V) : Prop where
  inv : Inv [] v
  incoming : v.contents.held .incoming = none
  tmp : v.contents.held .tmp = none

variable {t : Traits F} {source : Place W} {forward : Forward V} {dtor incomingDtor : Script W}

theorem ends_takeIn (h : Inv loose v) (hx : v.contents.held source = some x)
    (hnone : v.contents.held .incoming = none) (hQ : ∀ v', Inv loose v' →
      v'.contents = (v.contents.taken source x forward).put .incoming (some x) → Q () v') :
    (takeIn source x.type forward).EndsOr S v Q R := by
  have hne : Place.incoming ≠ source := by
    rintro rfl
    rw [hnone] at hx
    cases hx
  cases forward with
  | copy => exact ends_copyObject h hx rfl hnone (by simp) fun v1 h1 hc1 _ => hQ v1 h1 hc1
  | move left =>
    refine ends_moveObject h hx rfl hnone (by simp) fun v1 h1 hc1 _ => hQ v1 h1 ?_
    rw [hc1, Contents.put_comm _ _ _ hne]
    rfl

variable {B : Contents W F V}

/-- STEP: the new target is built, the old one goes, the new one comes. -/
theorem ends_tryAssign (h : Sound v) (halive : v.alive self = true) (hx : v.contents.held source = some x)
    (hstore : t.refuses x = false → v.contents.store t self source forward dtor incomingDtor x = some B) :
    (tryAssignCallable t self source forward dtor incomingDtor).EndsOr (t.hardens x = true) v
      (fun b v' => b = !t.refuses x ∧ (b = false → v' = v) ∧
        (b = true → Inv [] v' ∧ v'.contents = B)) R := by
  refine ends_bind (ends_read hx ?_)
  split
  · next hhardens => exact ends_stop hhardens
  · split
    · next hvacant =>
      -- an empty wrapper: the destination is reset
      have hvac : t.vacant x = true := hvacant
      have hrefuses : t.refuses x = false := by rw [Traits.refuses, hvac]; rfl
      have hrelease := hstore hrefuses
      rw [Contents.store, if_pos hvac] at hrelease
      refine (ends_reset h.inv (by simp) (by simp) halive hrelease).bind ?_
      rintro _ v1 ⟨h1, hc1, -⟩
      exact ends_pure ⟨by rw [hrefuses]; rfl, by simp, fun _ => ⟨h1, hc1⟩⟩
    · next hvacant =>
      have hvac : t.vacant x = false := by simpa [Traits.vacant] using hvacant
      split
      · next hlarge =>
        have hrefuses : t.refuses x = true := by simp [Traits.refuses, hvac, hlarge]
        exact ends_pure ⟨by rw [hrefuses]; rfl, fun _ => rfl, by simp⟩
      · next hfits =>
        have hrefuses : t.refuses x = false := by simp [Traits.refuses, hfits]
        have hB := hstore hrefuses
        rw [Contents.store, hvac] at hB
        obtain ⟨C, hC, hsettle⟩ := Option.bind_eq_some_iff.mp hB
        refine ends_bind (ends_takeIn h.inv hx h.incoming ?_)
        intro v1 h1 hc1
        have halive1 : v1.alive self = true := by
          have heq := congrFun (congrArg Contents.alive hc1) self
          rw [Contents.put_alive, Contents.taken_alive] at heq
          exact heq.trans halive
        have hrelease : v1.contents.release [self] self dtor = some (C.put .incoming (some x)) := by
          rw [hc1, Contents.release_put (aloof_incoming _) (by simp), hC]
          rfl
        refine (ends_reset h1 (by simp) (by simp) halive1 hrelease).bind ?_
        rintro _ v2 ⟨h2, hc2, -⟩
        have halive2 : v2.alive self = true := by
          have heq := Contents.release_alive (List.mem_cons_self ..) hrelease
          rw [← hc2] at heq
          exact heq.trans halive1
        have hempty : v2.contents.held (.target self) = none :=
          hc2 ▸ Contents.release_empty (List.mem_cons_self ..) hrelease
        have hinc2 : v2.contents.held .incoming = some x := by rw [hc2, Contents.put_held_self]
        refine ends_bind (ends_moveObject (h2.weaken self) hinc2 halive2 hempty ?_ ?_)
        · rintro u ⟨⟩
          exact List.mem_cons_self ..
        · intro v3 h3 hc3 _
          have halive3 : v3.alive self = true :=
            (congrFun (congrArg Contents.alive hc3) self).trans halive2
          refine ends_bind (ends_setOps h3 halive3 ?_)
          intro v4 h4 hc4 ho4
          have hself : v4.contents.held (.target self) = some x := by
            rw [hc4, hc3, Contents.put_held_ne _ _ (by simp), Contents.put_held_self]
          have h4' : Inv [] v4 := by
            refine h4.strengthen ?_
            rw [ho4, Function.update_self, hself]
            rfl
          have hinc4 : v4.contents.held .incoming = some (x.moved (x.value, x.null)) := by
            rw [hc4, hc3, Contents.put_held_self]
          refine ends_bind (ends_destroyObject h4' hinc4 (by simp) ?_)
          intro v5 h5 hc5 _
          -- the local is gone, and the rest is what `store` says
          have hlocal : C.held .incoming = none := by
            rw [Contents.release_held (aloof_incoming _) (by simp) hC,
              Contents.taken_held_incoming hx h.incoming]
          have hcontents : v5.contents = C.put (.target self) (some x) := by
            rw [hc5, hc4, hc3, hc2, Contents.put_put,
              Contents.put_comm _ _ _ (by simp : Place.target self ≠ .incoming), Contents.put_put,
              Contents.put_of_held hlocal]
          have hown : Owned [self] incomingDtor v5 (none : Option W) := by
            rintro u ⟨⟩
          refine (ends_runScript h5 (by simp) (by rw [hcontents, hsettle]) hown).imp ?_
          rintro _ v6 ⟨h6, hc6, -⟩
          exact ends_pure ⟨by rw [hrefuses]; rfl, by simp, fun _ => ⟨h6, hc6⟩⟩

/-- The asserting form stops where `try_assign()` refuses. -/
theorem ends_assign (h : Sound v) (halive : v.alive self = true) (hx : v.contents.held source = some x)
    (hstore : v.contents.store t self source forward dtor incomingDtor x = some B) :
    (assign t self source forward dtor incomingDtor).EndsOr
      ((t.hardens x || t.refuses x) = true) v (fun _ v' => Inv [] v' ∧ v'.contents = B) R := by
  have htry := ends_tryAssign (R := R) h halive hx fun _ => hstore
  refine (htry.stops fun hhardens => by rw [hhardens]; rfl).bind ?_
  rintro b v1 ⟨hb, -, hstored⟩
  cases b with
  | true => exact ends_pure (hstored rfl)
  | false =>
    have hrefuses : t.refuses x = true := by simpa using hb
    exact ends_stop (by rw [hrefuses, Bool.or_true])

end Metl.FixedFunction
