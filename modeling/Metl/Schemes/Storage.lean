import Metl.Schemes.Ledger
import Metl.Schemes.Throwing

/-! Raw storage: places in which a program builds and destroys objects by hand.

    A place is dead or holds one object. Building, destroying, reading and writing are programs; to
    destroy, read or write in a dead place is undefined, and building over a live object loses it,
    which the ledger shows. Beside the places stand the program's other variables, the registers.

        place     p₀   p₁   p₂   p₃
        object    #4 a  ·   #7 b  ·          registers: sizes, flags, … -/

namespace Metl.Schemes
open Function

/-- Objects with the number each got when it was built. -/
structure Storage (P A R : Type) where
  cell : P → Option (ℕ × A)
  built : ℕ
  destroyed : List ℕ
  regs : R

namespace Storage

variable {P A R : Type}

def getRegs : Prog (Storage P A R) R := fun s => .ret s.regs s

def modifyRegs (f : R → R) : Prog (Storage P A R) Unit := fun s => .ret () { s with regs := f s.regs }

def readAt (p : P) : Prog (Storage P A R) A := fun s =>
  match s.cell p with
  | none => .undefined
  | some o => .ret o.2 s

variable [DecidableEq P]

def constructAt (p : P) (a : A) : Prog (Storage P A R) Unit := fun s => .ret ()
  { s with
    cell := update s.cell p (some (s.built, a))
    built := s.built + 1 }

def destroyAt (p : P) : Prog (Storage P A R) Unit := fun s =>
  match s.cell p with
  | none => .undefined
  | some o => .ret ()
    { s with
      cell := update s.cell p none
      destroyed := s.destroyed ++ [o.1] }

/-- The object in `p` changes its contents. -/
def writeAt (p : P) (a : A) : Prog (Storage P A R) Unit := fun s =>
  match s.cell p with
  | none => .undefined
  | some o => .ret () { s with cell := update s.cell p (some (o.1, a)) }

/-! ### What the storage holds -/

omit [DecidableEq P] in
theorem ext_cell {s : Storage P A R} {τ : P → Option A} {p : P} {a : A}
    (h : (s.cell p).map Prod.snd = τ p) (hp : τ p = some a) : ∃ k, s.cell p = some (k, a) := by
  rw [hp] at h
  obtain ⟨⟨k, a'⟩, hcell, rfl⟩ := Option.map_eq_some_iff.mp h
  exact ⟨k, hcell⟩

/-- The contents of every place, the registers, and a ledger that balances. -/
structure Holds (τ : P → Option A) (r : R) (s : Storage P A R) : Prop where
  shape : ∀ p, (s.cell p).map Prod.snd = τ p
  regs_eq : s.regs = r
  ledger : Ledger (fun p => (s.cell p).map Prod.fst) s.built s.destroyed

variable {τ : P → Option A} {r : R} {s : Storage P A R} {p : P} {a b : A}

omit [DecidableEq P] in
theorem Holds.congr {τ' : P → Option A} (h : Holds τ r s) (hτ : ∀ p, τ p = τ' p) : Holds τ' r s :=
  ⟨fun p => (h.shape p).trans (hτ p), h.regs_eq, h.ledger⟩

section Rules
variable {Q : Unit → Storage P A R → Prop} {E : Storage P A R → Prop}

omit [DecidableEq P] in
theorem ends_getRegs {Q : R → Storage P A R → Prop} (h : Holds τ r s) (hret : Q r s) :
    getRegs.Ends s Q E := by
  rw [← h.regs_eq] at hret
  exact hret

omit [DecidableEq P] in
theorem ends_modifyRegs {f : R → R} (h : Holds τ r s) (hret : ∀ s', Holds τ (f r) s' → Q () s') :
    (modifyRegs f).Ends s Q E :=
  hret _ ⟨h.shape, congrArg f h.regs_eq, h.ledger⟩

omit [DecidableEq P] in
theorem ends_readAt {Q : A → Storage P A R → Prop} (h : Holds τ r s) (hp : τ p = some a)
    (hret : Q a s) : (readAt p).Ends s Q E := by
  obtain ⟨k, hcell⟩ := ext_cell (h.shape p) hp
  unfold Prog.Ends Prog.EndsOr readAt
  simp only [hcell]
  exact hret

theorem ends_constructAt (h : Holds τ r s) (hp : τ p = none)
    (hret : ∀ s', Holds (update τ p (some a)) r s' → Q () s') : (constructAt p a).Ends s Q E := by
  have hdead : s.cell p = none := by simpa [hp] using h.shape p
  refine hret _ ⟨?_, h.regs_eq, ?_⟩
  · intro q
    rcases eq_or_ne q p with rfl | hqp
    · simp
    · simpa [hqp] using h.shape q
  · have hledger := h.ledger.build (p := p) (by simp [hdead])
    convert hledger using 1
    funext q
    rcases eq_or_ne q p with rfl | hqp
    · simp
    · simp [hqp]

theorem ends_destroyAt (h : Holds τ r s) (hp : τ p = some a)
    (hret : ∀ s', Holds (update τ p none) r s' → Q () s') : (destroyAt p).Ends s Q E := by
  obtain ⟨k, hcell⟩ := ext_cell (h.shape p) hp
  unfold Prog.Ends Prog.EndsOr destroyAt
  simp only [hcell]
  refine hret _ ⟨?_, h.regs_eq, ?_⟩
  · intro q
    rcases eq_or_ne q p with rfl | hqp
    · simp
    · simpa [hqp] using h.shape q
  · have hledger := h.ledger.destroy (p := p) (k := k) (by simp [hcell])
    convert hledger using 1
    funext q
    rcases eq_or_ne q p with rfl | hqp
    · simp
    · simp [hqp]

theorem ends_writeAt (h : Holds τ r s) (hp : τ p = some a)
    (hret : ∀ s', Holds (update τ p (some b)) r s' → Q () s') : (writeAt p b).Ends s Q E := by
  obtain ⟨k, hcell⟩ := ext_cell (h.shape p) hp
  unfold Prog.Ends Prog.EndsOr writeAt
  simp only [hcell]
  refine hret _ ⟨?_, h.regs_eq, ?_⟩
  · intro q
    rcases eq_or_ne q p with rfl | hqp
    · simp
    · simpa [hqp] using h.shape q
  · convert h.ledger using 1
    funext q
    rcases eq_or_ne q p with rfl | hqp
    · simp [hcell]
    · simp [hqp]

end Rules

end Storage

end Metl.Schemes
