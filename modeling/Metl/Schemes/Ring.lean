import Mathlib

/-! Circular doubly linked lists over nodes that hold their own links.

        ┌──► h ⇄ a ⇄ b ⇄ c ◄──┐            a walk: h a b c h
        └─────────────────────┘

    A walk is a list of nodes in which each is joined to the next in both directions. A ring is a walk
    that ends where it began and visits no other node twice. Surgery on two neighbours leaves the
    walks that do not pass between them as they were. -/

namespace Metl.Schemes
open Function

/-- The links of every node; `none` is the null pointer. -/
structure Links (N : Type*) where
  next : N → Option N
  prev : N → Option N

variable {N : Type*} {s s' : Links N} {l u v : List N} {p q x : N}

/-- `a` links forward to `b`, and `b` back to `a`. -/
def Links.Joined (s : Links N) (a b : N) : Prop := s.next a = some b ∧ s.prev b = some a

def Walk (s : Links N) (l : List N) : Prop := l.IsChain s.Joined

/-- A walk reads `next` of all but its last node and `prev` of all but its first. -/
theorem Walk.congr (h : Walk s l) (hnext : ∀ a ∈ l.dropLast, s'.next a = s.next a)
    (hprev : ∀ b ∈ l.tail, s'.prev b = s.prev b) : Walk s' l := by
  induction l with
  | nil => exact List.IsChain.nil
  | cons a l ih =>
    cases l with
    | nil => exact List.IsChain.singleton a
    | cons b l =>
      obtain ⟨⟨hab, hba⟩, hrest⟩ := List.isChain_cons_cons.mp h
      refine List.isChain_cons_cons.mpr ⟨⟨?_, ?_⟩, ih hrest ?_ ?_⟩
      · rw [hnext a (by simp), hab]
      · rw [hprev b (by simp), hba]
      · intro c hc
        exact hnext c (by simp [hc])
      · intro c hc
        exact hprev c (List.mem_cons_of_mem b hc)

theorem walk_cut : Walk s (u ++ p :: q :: v) ↔ Walk s (u ++ [p]) ∧ s.Joined p q ∧ Walk s (q :: v) :=
  List.isChain_append_cons_cons

/-- No node twice, except that the walk may end where it began. -/
structure Simple (l : List N) : Prop where
  sources : l.dropLast.Nodup
  targets : l.tail.Nodup

/-- Where a simple walk is cut, the neighbours are met nowhere else. -/
theorem Simple.cut (h : Simple (u ++ p :: q :: v)) :
    (p ∉ u ∧ p ∉ (q :: v).dropLast) ∧ q ∉ (u ++ [p]).tail ∧ q ∉ v := by
  have hsources := h.sources
  have htargets := h.targets
  have hlast : (u ++ p :: q :: v).dropLast = u ++ p :: (q :: v).dropLast := by
    rw [List.dropLast_append_of_ne_nil (by simp), List.dropLast_cons_of_ne_nil (by simp)]
  rw [hlast, List.nodup_append] at hsources
  obtain ⟨-, hp, hdisjoint⟩ := hsources
  refine ⟨⟨fun hmem => hdisjoint p hmem p (by simp) rfl, (List.nodup_cons.mp hp).1⟩, ?_⟩
  have htail : (u ++ p :: q :: v).tail = (u ++ [p]).tail ++ q :: v := by
    cases u <;> simp
  rw [htail, List.nodup_append] at htargets
  obtain ⟨-, hq, hdisjoint⟩ := htargets
  exact ⟨fun hmem => hdisjoint q hmem q (by simp) rfl, (List.nodup_cons.mp hq).1⟩

/-- Forwards and backwards. -/
theorem Walk.reverse (h : Walk s l) : Walk ⟨s.prev, s.next⟩ l.reverse := by
  refine List.isChain_reverse.mpr (h.imp ?_)
  rintro a b ⟨hab, hba⟩
  exact ⟨hba, hab⟩

section Surgery
variable [DecidableEq N]

/-- A node is linked in between two neighbours. -/
theorem Walk.insert (h : Walk s (u ++ p :: q :: v)) (hsimple : Simple (u ++ p :: q :: v))
    (hx : x ∉ u ++ p :: q :: v) (hnext : s'.next = update (update s.next x (some q)) p (some x))
    (hprev : s'.prev = update (update s.prev x (some p)) q (some x)) :
    Walk s' (u ++ p :: x :: q :: v) := by
  obtain ⟨⟨hpu, hpv⟩, hqu, hqv⟩ := hsimple.cut
  obtain ⟨hleft, -, hright⟩ := walk_cut.mp h
  simp only [List.mem_append, List.mem_cons, not_or] at hx
  obtain ⟨hxu, hxp, hxq, hxv⟩ := hx
  refine walk_cut.mpr ⟨?_, ⟨?_, ?_⟩, List.isChain_cons_cons.mpr ⟨⟨?_, ?_⟩, ?_⟩⟩
  · refine hleft.congr ?_ ?_
    · intro a ha
      rw [List.dropLast_concat] at ha
      have hap : a ≠ p := ne_of_mem_of_not_mem ha hpu
      have hax : a ≠ x := ne_of_mem_of_not_mem ha hxu
      simp [hnext, hap, hax]
    · intro b hb
      have hbq : b ≠ q := ne_of_mem_of_not_mem hb hqu
      have hbx : b ≠ x := by
        rintro rfl
        have hmem := List.mem_of_mem_tail hb
        simp only [List.mem_append, List.mem_singleton] at hmem
        exact hmem.elim hxu hxp
      simp [hprev, hbq, hbx]
  · simp [hnext]
  · simp [hprev, hxq]
  · simp [hnext, hxp]
  · simp [hprev]
  · refine hright.congr ?_ ?_
    · intro a ha
      have hap : a ≠ p := ne_of_mem_of_not_mem ha hpv
      have hax : a ≠ x := by
        rintro rfl
        exact (List.mem_cons.mp (List.dropLast_subset _ ha)).elim hxq hxv
      simp [hnext, hap, hax]
    · intro b hb
      have hbq : b ≠ q := ne_of_mem_of_not_mem hb hqv
      have hbx : b ≠ x := ne_of_mem_of_not_mem hb hxv
      simp [hprev, hbq, hbx]

/-- A node is taken out from between its neighbours. -/
theorem Walk.remove (h : Walk s (u ++ p :: x :: q :: v)) (hsimple : Simple (u ++ p :: x :: q :: v))
    (hnext : s'.next = update (update s.next p (some q)) x none)
    (hprev : s'.prev = update (update s.prev q (some p)) x none) : Walk s' (u ++ p :: q :: v) := by
  obtain ⟨⟨hpu, hpv⟩, hxu, hxv⟩ := hsimple.cut
  have hsplit : u ++ p :: x :: q :: v = (u ++ [p]) ++ x :: q :: v := by simp
  have hsimple' := hsimple
  rw [hsplit] at hsimple'
  obtain ⟨⟨hxu', hxv'⟩, hqu, hqv⟩ := hsimple'.cut
  obtain ⟨hleft, -, hright⟩ := walk_cut.mp h
  obtain ⟨-, hright⟩ := List.isChain_cons_cons.mp hright
  have hpx : p ≠ x := by
    rintro rfl
    exact hxu' (by simp)
  have hqx : q ≠ x := by
    rintro rfl
    exact hxv (by simp)
  refine walk_cut.mpr ⟨?_, ⟨?_, ?_⟩, ?_⟩
  · refine hleft.congr ?_ ?_
    · intro a ha
      rw [List.dropLast_concat] at ha
      have hap : a ≠ p := ne_of_mem_of_not_mem ha hpu
      have hax : a ≠ x := by
        rintro rfl
        exact hxu' (List.mem_append_left _ ha)
      simp [hnext, hap, hax]
    · intro b hb
      have hbx : b ≠ x := ne_of_mem_of_not_mem hb hxu
      have hbq : b ≠ q := by
        rintro rfl
        refine hqu ?_
        cases u with
        | nil => simp at hb
        | cons c u => exact List.mem_append_left _ hb
      simp [hprev, hbq, hbx]
  · simp [hnext, hpx]
  · simp [hprev, hqx]
  · refine Walk.congr hright ?_ ?_
    · intro a ha
      have hap : a ≠ p := by
        rintro rfl
        refine hpv ?_
        simpa using Or.inr ha
      have hax : a ≠ x := ne_of_mem_of_not_mem ha hxv'
      simp [hnext, hap, hax]
    · intro b hb
      have hbq : b ≠ q := ne_of_mem_of_not_mem hb hqv
      have hbx : b ≠ x := by
        rintro rfl
        exact hxv (List.mem_cons_of_mem q hb)
      simp [hprev, hbq, hbx]

end Surgery

/-! ### Following the links -/

section Follow
variable [DecidableEq N]

/-- The nodes met on the way along `f` from `n` until `stop`; `none` if the way ends before. -/
def follow (f : N → Option N) (stop : N) : ℕ → N → Option (List N)
  | 0, _ => none
  | fuel + 1, n =>
    if n = stop then some []
    else (f n).bind fun n' => (follow f stop fuel n').map fun rest => n :: rest

theorem follow_walk (h : Walk s (p :: (l ++ [x]))) (hx : x ∉ l) :
    (s.next p).bind (follow s.next x (l.length + 1)) = some l := by
  induction l generalizing p with
  | nil =>
    obtain ⟨⟨hpx, -⟩, -⟩ := List.isChain_cons_cons.mp h
    simp [hpx, follow]
  | cons a l ih =>
    obtain ⟨⟨hpa, -⟩, hrest⟩ := List.isChain_cons_cons.mp h
    simp only [List.mem_cons, not_or] at hx
    have hstep := ih hrest hx.2
    obtain ⟨n, hn, hfollow⟩ := Option.bind_eq_some_iff.mp hstep
    simp only [hpa, Option.bind_some, List.length_cons]
    rw [follow, if_neg (Ne.symm hx.1), hn, Option.bind_some, hfollow]
    rfl

/-- Following `next` around a ring gives its nodes, following `prev` gives them in reverse. -/
theorem follow_ring (h : Walk s (x :: (l ++ [x]))) (hx : x ∉ l) :
    (s.next x).bind (follow s.next x (l.length + 1)) = some l ∧
      (s.prev x).bind (follow s.prev x (l.length + 1)) = some l.reverse := by
  refine ⟨follow_walk h hx, ?_⟩
  have hback := h.reverse
  rw [List.reverse_cons, List.reverse_append, List.reverse_singleton, List.singleton_append] at hback
  have hfollow := follow_walk (s := ⟨s.prev, s.next⟩) hback (by simpa using hx)
  rwa [List.length_reverse] at hfollow

end Follow

end Metl.Schemes
