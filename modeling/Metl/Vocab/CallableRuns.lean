import Metl.Vocab.CallableAssignment

/-! Runs of calls on callables.

    Every call that `act` allows does what `act` says if it is safe, and is undefined if it is not. -/

namespace Metl.FixedFunction
open Metl.Schemes Metl.Schemes.Prog

variable {W F V : Type} [DecidableEq W]

/-! ### Three places of a swap -/

namespace Contents

/-- The contents `D` with the local and the two targets of a swap set. -/
def frame (D : Contents W F V) (self other : W) (tmp a b : Option (Callable F V)) : Contents W F V :=
  ((D.put .tmp tmp).put (.target self) a).put (.target other) b

variable {D : Contents W F V} {self other : W} {tmp a b : Option (Callable F V)}

variable {σ : Script W}

end Contents

/-! ### Constructions and assignments -/

variable [DecidableEq F] {v : World W F V} {self other : W} {x y : Callable F V}
  {left : V × Bool} {dtor otherDtor tmpDtor : Script W} {B C : Contents W F V}
  {R : World W F V → Prop} {S : Prop}

/-- A target moves to an empty wrapper, and the wrapper it was in is emptied. -/
theorem ends_moveAway (h : Inv [] v) (hne : other ≠ self) (halive : v.alive self = true)
    (hx : v.contents.held (.target other) = some x) (hnone : v.contents.held (.target self) = none)
    (hB : (v.contents.put (.target self) (some x)).release [other, self] other dtor = some B) :
    (moveTarget self other left >>= fun _ => reset other dtor).EndsOr S v
      (fun _ v' => Inv [] v' ∧ v'.contents = B) R := by
  refine ends_bind (ends_moveTarget (h.weaken self) (by simpa using hne) halive hx hnone ?_)
  intro v1 h1 hc1
  have hsome : ((v.contents.put (.target self) (some x)).held (.target other)).isSome = true := by
    rw [Contents.put_held_ne _ _ (by simpa using hne), hx]
    rfl
  have hrelease : v1.contents.release [other, self] other dtor = some B := by
    rw [hc1, Contents.release_moved hsome, hB]
  have halive1 : v1.alive other = true :=
    (congrFun (congrArg Contents.alive hc1) other).trans (h.alive hx)
  refine (ends_reset h1 (by simp) (by simp) halive1 hrelease).imp ?_
  rintro _ v2 ⟨h2, hc2, -⟩
  exact ⟨h2, hc2⟩

omit [DecidableEq F] in
/-- A wrapper begins beside one that is alive. -/
theorem ends_begin (h : Sound v) (hdead : v.alive self = false) (halive : v.alive other = true) :
    (beginWrapper self).EndsOr S v (fun _ v1 => Inv [] v1 ∧
      v1.contents = v.contents.mark self true ∧ v1.contents.held (.target self) = none ∧
      v1.alive self = true ∧ v1.alive other = true ∧ other ≠ self) R := by
  have hne : other ≠ self := by
    rintro rfl
    rw [hdead] at halive
    cases halive
  refine ends_beginWrapper h.inv hdead ?_
  intro v1 h1 hc1 _
  have hself := congrFun (congrArg Contents.alive hc1) self
  have hother := congrFun (congrArg Contents.alive hc1) other
  rw [Contents.mark_alive_self] at hself
  rw [Contents.mark_alive_ne _ _ hne] at hother
  refine ⟨h1, hc1, ?_, hself, hother.trans halive, hne⟩
  rw [hc1, Contents.mark_held]
  exact h.inv.dead self hdead

theorem ends_copyConstruct (h : Sound v) (hdead : v.alive self = false)
    (halive : v.alive other = true) : (copyConstruct self other).EndsOr S v
      (fun _ v' => Inv [] v' ∧ v'.contents =
        (v.contents.mark self true).put (.target self) (v.contents.held (.target other))) R := by
  refine (ends_begin h hdead halive).bind ?_
  rintro _ v1 ⟨h1, hc1, hself1, halive1, hother1, hne⟩
  rw [← hc1]
  have hheld1 : v.contents.held (.target other) = v1.contents.held (.target other) := by
    rw [hc1, Contents.mark_held]
  rw [hheld1]
  refine ends_bind (ends_opsOf hother1 ?_)
  rw [h1.ops other (by simp)]
  cases hx : v1.contents.held (.target other) with
  | none => exact ends_pure ⟨h1, (Contents.put_of_held hself1).symm⟩
  | some x =>
    exact ends_copyTarget (h1.weaken self) (by simpa using hne) halive1 hx hself1
      fun v2 h2 hc2 => ⟨h2, hc2⟩

theorem ends_moveConstruct (h : Sound v) (hdead : v.alive self = false) (halive : v.alive other = true)
    (hB : ((v.contents.mark self true).put (.target self)
      (v.contents.held (.target other))).release [other, self] other dtor = some B) :
    (moveConstruct self other left dtor).EndsOr S v (fun _ v' => Inv [] v' ∧ v'.contents = B) R := by
  refine (ends_begin h hdead halive).bind ?_
  rintro _ v1 ⟨h1, hc1, hself1, halive1, hother1, hne⟩
  have hheld1 : v.contents.held (.target other) = v1.contents.held (.target other) := by
    rw [hc1, Contents.mark_held]
  rw [← hc1, hheld1] at hB
  refine ends_bind (ends_opsOf hother1 ?_)
  rw [h1.ops other (by simp)]
  cases hx : v1.contents.held (.target other) with
  | none =>
    rw [hx, Contents.put_of_held hself1, Contents.release, hx] at hB
    cases hB
    exact ends_pure ⟨h1, rfl⟩
  | some x =>
    rw [hx] at hB
    exact ends_moveAway h1 hne halive1 hx hself1 hB

variable {w : W} {tmp b a : Option (Callable F V)} {D : Contents W F V}
  {m : Prog (World W F V) Unit}

variable {A1 A2 A3 : Contents W F V}

variable {t : Traits F} {call : Call W F V} {answer : Option Bool} {source : Place W}
  {forward : Forward V} {incomingDtor : Script W}

theorem ends_construct (h : Sound v) (hdead : v.alive self = false) (hx : v.contents.held source = some x)
    (hstore : (v.contents.mark self true).store t self source forward .done incomingDtor x =
      some B) : (construct t self source forward incomingDtor).EndsOr
      ((t.hardens x || t.refuses x) = true) v (fun _ v' => Inv [] v' ∧ v'.contents = B) R := by
  refine ends_bind (ends_beginWrapper h.inv hdead ?_)
  intro v1 h1 hc1 _
  have halive : v1.alive self = true :=
    (congrFun (congrArg Contents.alive hc1) self).trans (Contents.mark_alive_self ..)
  have hheld : v1.contents.held = v.contents.held := by rw [hc1, Contents.mark_held]
  have hsound : Sound v1 := ⟨h1, (congrFun hheld _).trans h.incoming, (congrFun hheld _).trans h.tmp⟩
  exact ends_assign hsound halive ((congrFun hheld _).trans hx) (by rw [hc1, hstore])

/-- What a call that the program may make comes to. -/
def Fulfils (t : Traits F) (v : World W F V) (call : Call W F V) : Prop :=
  ∀ B answer, v.contents.act t call = some (B, answer) →
    match serve t call v with
    | .ret b v' => v.contents.safe call = true ∧ b = answer ∧ v'.contents = B ∧ Sound v' ∧
        Contents.Delivers t v.contents v'.contents b call ∧ (b = some false → v' = v)
    | .thrown _ => False
    | .stopped => v.contents.stops t call = true
    | .undefined => v.contents.safe call = false

/-- A call that the program may make and that is safe, if it returns. -/
def step (t : Traits F) (v : World W F V) (call : Call W F V) : Option (World W F V) :=
  if (v.contents.act t call).isSome && v.contents.safe call then
    match serve t call v with
    | .ret _ v' => some v'
    | _ => none
  else none

end Metl.FixedFunction
