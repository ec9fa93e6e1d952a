import Metl.Pools.HandlePool
import Metl.Pools.ObjectPool

/-! Re-entrant constructors and destructors in both pools.

    Both pools keep the laws of `Schemes.Lawful`, so both survive every nesting of calls. `object_pool`
    does so only up to the capacities its links can hold: `link_type` stops at 32 bits, and from
    `2 ^ 32` slots on the count of slots used so far comes back to 0 with every slot in use.

        unused:  0 ─▶ 1 ─▶ … ─▶ 2^32 - 1 ─▶ 0        (slot 0 still holds its object) -/

namespace Metl.Reentrancy
open Metl.Schemes

variable {T : Type*} {c : ObjectPool.Cfg}

/-- Emplace `k` elements one after the other. -/
def fillActs (c : ObjectPool.Cfg) (x : T) : ℕ → List (PoolAct (BitVec c.w) T)
  | 0 => []
  | k + 1 => .tryEmplace :: .finish x :: fillActs c x k

/-- Nothing was removed yet, `k` slots were used, and the first of them holds an object. -/
structure Filled (c : ObjectPool.Cfg) (s : Nest (ObjectPool.Pool T)) (k : ℕ) : Prop where
  stack : s.stack = []
  freeHead : s.pool.freeHead = 0
  unused : s.pool.unused = k % 2 ^ ObjectPool.linkBits c.capacity
  first : 0 < k → (s.objects 0).isSome

/-- STEP: one more element goes to the next slot never used. -/
theorem filled_step (hcap : 2 ^ ObjectPool.linkBits c.capacity ≤ c.capacity) (x : T)
    {s : Nest (ObjectPool.Pool T)} {k : ℕ} (hf : Filled c s k)
    (hk : k < 2 ^ ObjectPool.linkBits c.capacity) :
    ∃ s₁ s₂, Nest.step (ObjectPool.ops c) s .tryEmplace = some s₁ ∧
      Nest.step (ObjectPool.ops c) s₁ (.finish x) = some s₂ ∧ Filled c s₂ (k + 1) := by
  have hunused : s.pool.unused = k := by rw [hf.unused, Nat.mod_eq_of_lt hk]
  obtain ⟨p, hp, hhead, hnext⟩ : ∃ p, (ObjectPool.ops c).claim s.pool = some (some k, p) ∧
      p.freeHead = 0 ∧ p.unused = (k + 1) % 2 ^ ObjectPool.linkBits c.capacity := by
    have hclaim := ObjectPool.claim_unused (c := c) hf.freeHead (by omega)
    rw [hunused] at hclaim
    exact ⟨_, hclaim, hf.freeHead, rfl⟩
  refine ⟨{ s with pool := p, stack := .ctor k :: s.stack }, _, ?_, rfl, hf.stack, hhead, hnext,
    fun _ => ?_⟩
  · simp only [Nest.step, hf.stack, userRuns, if_true, hp, Option.map_some]
  · rcases Nat.eq_zero_or_pos k with rfl | hpos
    · simp
    · simpa [hpos.ne] using hf.first hpos

/-- RUN: the slots fill up in order. -/
theorem filled_run (hcap : 2 ^ ObjectPool.linkBits c.capacity ≤ c.capacity) (x : T) {n : ℕ} :
    ∀ {s : Nest (ObjectPool.Pool T)} {k : ℕ}, Filled c s k → k + n ≤ 2 ^ ObjectPool.linkBits c.capacity →
      ∃ s', run (Nest.step (ObjectPool.ops c)) s (fillActs c x n) = some s' ∧ Filled c s' (k + n) := by
  induction n with
  | zero => exact fun {s k} hf _ => ⟨s, rfl, hf⟩
  | succ n ih =>
    intro s k hf hk
    obtain ⟨s₁, s₂, hs₁, hs₂, hf₂⟩ := filled_step hcap x hf (by omega)
    obtain ⟨s', hs', hf'⟩ := ih hf₂ (by omega)
    refine ⟨s', run_cons_some.mpr ⟨s₁, hs₁, run_cons_some.mpr ⟨s₂, hs₂, hs'⟩⟩, ?_⟩
    rwa [show k + (n + 1) = k + 1 + n by omega]

/-- With all slots used and none removed, the next `try_emplace` takes slot 0 again, over its object. -/
theorem claims_live_slot (hcap : 2 ^ 32 ≤ c.capacity) (x : T) :
    ∃ s p, run (Nest.step (ObjectPool.ops c)) (Nest.init (ObjectPool.ops c))
        (fillActs c x (2 ^ ObjectPool.linkBits c.capacity)) = some s ∧ s.stack = [] ∧
      (ObjectPool.ops c).claim s.pool = some (some 0, p) ∧ (s.objects 0).isSome := by
  have hbits : ObjectPool.linkBits c.capacity = 32 := by
    rw [ObjectPool.linkBits, if_neg (by omega), if_neg (by omega)]
  have hwrap : 2 ^ ObjectPool.linkBits c.capacity ≤ c.capacity := by rw [hbits]; exact hcap
  have hinit : Filled c (Nest.init (ObjectPool.ops c) : Nest (ObjectPool.Pool T)) 0 :=
    ⟨rfl, rfl, (Nat.zero_mod _).symm, fun h => absurd h (Nat.lt_irrefl 0)⟩
  obtain ⟨s, hs, hf⟩ := filled_run hwrap x hinit (Nat.le_of_eq (Nat.zero_add _))
  rw [Nat.zero_add] at hf
  have hzero : s.pool.unused = 0 := by rw [hf.unused, Nat.mod_self]
  have hclaim := ObjectPool.claim_unused (c := c) hf.freeHead (by omega)
  rw [hzero] at hclaim
  exact ⟨s, _, hs, hf.stack, hclaim, hf.first (Nat.two_pow_pos _)⟩

theorem not_survives {P : PoolOps (ObjectPool.Pool T) (BitVec c.w) T} {s : Nest (ObjectPool.Pool T)}
    {p : ObjectPool.Pool T} (hp : P.claim s.pool = some (some 0, p)) (hobj : (s.objects 0).isSome) :
    ¬ Survives P s := by
  intro hs
  obtain ⟨slot, p', hclaim, hslot⟩ := hs.emplace
  obtain ⟨rfl, -⟩ := Prod.mk.inj (Option.some.inj (hp.symm.trans hclaim))
  rw [(hslot 0 rfl).2.1] at hobj
  cases hobj

/-- CORRECT: `handle_pool` survives every nesting of calls at every capacity, and `object_pool` does so
    exactly at the capacities below `2 ^ 32`. -/
theorem pools_survive_reentrancy [Inhabited T] :
    (∀ (c : HandlePool.Cfg) (acts : List (PoolAct (HandlePool.Handle c.g) T))
      (s : Nest (HandlePool.Pool T c.g)),
      run (Nest.step (HandlePool.ops c)) (Nest.init (HandlePool.ops c)) acts = some s →
        Survives (HandlePool.ops c : PoolOps _ _ T) s) ∧
    ∀ c : ObjectPool.Cfg,
      (∀ (acts : List (PoolAct (BitVec c.w) T)) (s : Nest (ObjectPool.Pool T)),
        run (Nest.step (ObjectPool.ops c)) (Nest.init (ObjectPool.ops c)) acts = some s →
          Survives (ObjectPool.ops c : PoolOps _ _ T) s) ↔ c.capacity < 2 ^ 32 := by
  refine ⟨fun c acts s h => survives HandlePool.lawful h, fun c => ⟨fun hall => ?_, fun hcap => ?_⟩⟩
  · by_contra hcap
    obtain ⟨s, p, hs, -, hp, hobj⟩ := claims_live_slot (Nat.le_of_not_lt hcap) (default : T)
    exact not_survives hp hobj (hall _ s hs)
  · exact fun acts s h => survives (ObjectPool.lawful hcap) h

theorem wideSlot_pos : 0 < 4 := by decide

/-- A pool of `2 ^ 32` slots of four bytes. -/
def wideCfg : ObjectPool.Cfg := ⟨2 ^ 32, 64, 4096, 4, by decide, wideSlot_pos, by omega⟩

/-- After `2 ^ 32` elements the pool is full, and one more is built over the first. -/
theorem wide_pool_reuses_live_slot :
    ∃ s p, run (Nest.step (ObjectPool.ops wideCfg : PoolOps _ _ ℕ)) (Nest.init (ObjectPool.ops wideCfg))
        (fillActs wideCfg 7 (2 ^ ObjectPool.linkBits wideCfg.capacity)) = some s ∧ s.stack = [] ∧
      (ObjectPool.ops wideCfg : PoolOps _ _ ℕ).claim s.pool = some (some 0, p) ∧ (s.objects 0).isSome ∧
      ¬ Survives (ObjectPool.ops wideCfg : PoolOps _ _ ℕ) s := by
  obtain ⟨s, p, hs, hstack, hp, hobj⟩ := claims_live_slot (c := wideCfg) (Nat.le_refl _) 7
  exact ⟨s, p, hs, hstack, hp, hobj, not_survives hp hobj⟩

end Metl.Reentrancy
