import Mathlib

/-! Linear probing over a ring of `n` buckets, and the elements a row of slots holds.

        start   start+1         …          n-1   0   …
        [ a ]   [ b ]   [ c ]   [   ]      …    probes go right and wrap

    An element is found again as long as the probes before its bucket meet no reason to stop
    (`Reached`). What the slots hold is read off as a list (`contents`), up to its order, and a set of
    marked slots is counted by `tally`. -/

namespace Metl.Schemes
open Function

/-! ### Probes -/

/-- The bucket the `j`-th probe from `start` looks at. -/
def bucket (n start j : ℕ) : ℕ := (start + j) % n

variable {n : ℕ}

theorem bucket_lt (hn : 0 < n) (start j : ℕ) : bucket n start j < n := Nat.mod_lt _ hn

variable {start i : ℕ} {f g : ℕ → Option α} {a : α} {p q : ℕ → Bool}

@[simp] theorem bucket_zero (hs : start < n) : bucket n start 0 = start :=
  Nat.mod_eq_of_lt hs

theorem bucket_succ (start j : ℕ) : (bucket n start j + 1) % n = bucket n start (j + 1) := by
  simp only [bucket, Nat.mod_add_mod, Nat.add_assoc]

/-- The first `n` probes meet every bucket. -/
theorem exists_bucket (start : ℕ) (hi : i < n) : ∃ d < n, bucket n start d = i := by
  have hn : 0 < n := by omega
  refine ⟨(i + (n - start % n)) % n, Nat.mod_lt _ hn, ?_⟩
  have hs : start % n < n := Nat.mod_lt _ hn
  have hsum : start % n + (i + (n - start % n)) = i + n := by omega
  rw [bucket, Nat.add_mod_mod, ← Nat.mod_add_mod, hsum, Nat.add_mod_right, Nat.mod_eq_of_lt hi]

/-- The first `n` probes meet no bucket twice. -/
theorem bucket_inj {j d : ℕ} (hj : j < n) (hd : d < n) (h : bucket n start j = bucket n start d) :
    j = d := by
  have hmod : j ≡ d [MOD n] := Nat.ModEq.add_left_cancel' start h
  rwa [Nat.ModEq, Nat.mod_eq_of_lt hj, Nat.mod_eq_of_lt hd] at hmod

/-- The probes from `start` get to bucket `i`, with `P` at every bucket before it. -/
def Reached (n start i : ℕ) (P : ℕ → Prop) : Prop :=
  ∃ d < n, bucket n start d = i ∧ ∀ j < d, P (bucket n start j)

theorem Reached.mono {P Q : ℕ → Prop} (h : Reached n start i P) (hPQ : ∀ j < n, P j → Q j) :
    Reached n start i Q := by
  obtain ⟨d, hd, hi, hbefore⟩ := h
  refine ⟨d, hd, hi, ?_⟩
  intro j hj
  exact hPQ _ (bucket_lt (by omega) start j) (hbefore j hj)

/-! ### The elements of a row of slots -/

variable {α : Type*}

/-- What the first `n` slots hold, by slot. -/
def contents (n : ℕ) (f : ℕ → Option α) : List α := (List.range n).filterMap f

theorem contents_succ (n : ℕ) (f : ℕ → Option α) : contents (n + 1) f = contents n f ++ (f n).toList := by
  rw [contents, List.range_succ, List.filterMap_append]
  cases h : f n <;> simp [contents, h]

theorem mem_contents : a ∈ contents n f ↔ ∃ i < n, f i = some a := by
  simp [contents]

theorem contents_congr (h : ∀ i < n, f i = g i) : contents n f = contents n g := by
  induction n with
  | zero => rfl
  | succ n ih =>
    rw [contents_succ, contents_succ, h n (by omega), ih]
    intro i hi
    exact h i (by omega)

theorem contents_eq_nil (h : ∀ i < n, f i = none) : contents n f = [] := by
  rw [List.eq_nil_iff_forall_not_mem]
  intro a ha
  obtain ⟨i, hi, hsome⟩ := mem_contents.mp ha
  simp [h i hi] at hsome

theorem contents_map {β : Type*} (n : ℕ) (f : ℕ → Option α) (g : α → β) :
    contents n (fun i => (f i).map g) = (contents n f).map g := by
  rw [contents, contents, List.map_filterMap]

/-- Emptying a slot takes its element out. -/
theorem contents_take (hi : i < n) (hf : f i = some a) :
    (contents n f).Perm (a :: contents n (update f i none)) := by
  induction n with
  | zero => omega
  | succ n ih =>
    rw [contents_succ, contents_succ]
    rcases Nat.lt_succ_iff_lt_or_eq.mp hi with hlt | rfl
    · rw [update_of_ne (by omega)]
      exact (ih hlt).append_right _
    · have hsame : contents i (update f i none) = contents i f := by
        refine contents_congr ?_
        intro j hj
        rw [update_of_ne (by omega)]
      simp [hsame, hf]

/-- One slot and the rest of the row. -/
theorem contents_split (hi : i < n) (f : ℕ → Option α) :
    (contents n f).Perm ((f i).toList ++ contents n (update f i none)) := by
  cases hf : f i with
  | none =>
    rw [← hf, update_eq_self, hf]
    exact List.Perm.refl _
  | some a => exact contents_take hi hf

/-- The row with slot `i` rewritten. -/
theorem contents_update (hi : i < n) (f : ℕ → Option α) (x : Option α) : (contents n (update f i x)).Perm
      (x.toList ++ contents n (update f i none)) := by
  have hsplit := contents_split hi (update f i x)
  rwa [update_self, update_idem] at hsplit

/-- Putting an element into a slot takes out the one that was there. -/
theorem contents_replace (hi : i < n) (f : ℕ → Option α) (a : α) :
    ((f i).toList ++ contents n (update f i (some a))).Perm (a :: contents n f) := by
  have hput := (contents_update hi f (some a)).append_left (f i).toList
  exact (hput.trans List.perm_middle).trans ((contents_split hi f).cons a).symm

/-- Fewer elements than slots: some slot is empty. -/
theorem exists_none (h : (contents n f).length < n) : ∃ i < n, f i = none := by
  have hlt : ((List.range n).filterMap f).length < (List.range n).length := by
    rwa [List.length_range]
  obtain ⟨i, hi, hnone⟩ := List.length_filterMap_lt_length_iff_exists.mp hlt
  exact ⟨i, List.mem_range.mp hi, hnone⟩

/-- An empty slot: fewer elements than slots. -/
theorem length_contents_lt (hi : i < n) (hf : f i = none) : (contents n f).length < n := by
  have hlt : ((List.range n).filterMap f).length < (List.range n).length :=
    List.length_filterMap_lt_length_iff_exists.mpr ⟨i, List.mem_range.mpr hi, hf⟩
  rwa [List.length_range] at hlt

theorem length_contents_le (n : ℕ) (f : ℕ → Option α) : (contents n f).length ≤ n := by
  have hle := List.length_filterMap_le f (List.range n)
  rwa [List.length_range] at hle

/-- Filtering every slot filters the row. -/
theorem contents_filter (n : ℕ) (f : ℕ → Option α) (p : α → Bool) :
    contents n (fun i => (f i).filter p) = (contents n f).filter p := by
  rw [contents, contents, List.filter_filterMap]

/-- What the slots from `i` on hold. -/
def contentsFrom (n i : ℕ) (f : ℕ → Option α) : List α := (List.range' i (n - i)).filterMap f

@[simp] theorem contentsFrom_zero (n : ℕ) (f : ℕ → Option α) : contentsFrom n 0 f = contents n f := by
  rw [contentsFrom, contents, List.range_eq_range', Nat.sub_zero]

@[simp] theorem contentsFrom_self (n : ℕ) (f : ℕ → Option α) : contentsFrom n n f = [] := by
  simp [contentsFrom]

theorem contentsFrom_step (hi : i < n) (f : ℕ → Option α) :
    contentsFrom n i f = (f i).toList ++ contentsFrom n (i + 1) f := by
  have hlen : n - i = n - (i + 1) + 1 := by omega
  rw [contentsFrom, hlen, List.range'_succ, List.filterMap_cons]
  cases f i <;> rfl

theorem contentsFrom_congr (h : ∀ j, i ≤ j → j < n → f j = g j) :
    contentsFrom n i f = contentsFrom n i g := by
  refine List.filterMap_congr ?_
  intro j hj
  obtain ⟨hle, hlt⟩ := List.mem_range'_1.mp hj
  exact h j hle (by omega)

/-- Empty slots add nothing. -/
theorem contentsFrom_skip {r : ℕ} (hle : i ≤ r) (hr : r ≤ n) (hnone : ∀ j, i ≤ j → j < r → f j = none) :
    contentsFrom n i f = contentsFrom n r f := by
  induction r, hle using Nat.le_induction with
  | base => rfl
  | succ r hle ih =>
    have hstep := contentsFrom_step (by omega : r < n) f
    rw [hnone r hle (Nat.lt_succ_self r)] at hstep
    rw [ih (by omega) (fun j hj hlt => hnone j hj (by omega)), hstep]
    rfl

/-! ### Marked slots -/

/-- How many of the first `n` slots are marked. -/
def tally (n : ℕ) (p : ℕ → Bool) : ℕ := (List.range n).countP p

theorem tally_succ (n : ℕ) (p : ℕ → Bool) : tally (n + 1) p = tally n p + (p n).toNat := by
  rw [tally, List.range_succ, List.countP_append]
  cases h : p n <;> simp [tally, h]

theorem tally_congr (h : ∀ i < n, p i = q i) : tally n p = tally n q := by
  induction n with
  | zero => rfl
  | succ n ih =>
    rw [tally_succ, tally_succ, h n (by omega), ih]
    intro i hi
    exact h i (by omega)

/-- Changing one mark moves the tally by the difference. -/
theorem tally_update (hi : i < n) (p : ℕ → Bool) (x : Bool) :
    tally n (update p i x) + (p i).toNat = tally n p + x.toNat := by
  induction n with
  | zero => omega
  | succ n ih =>
    rw [tally_succ, tally_succ]
    rcases Nat.lt_succ_iff_lt_or_eq.mp hi with hlt | rfl
    · have hstep := ih hlt
      rw [update_of_ne (by omega)]
      omega
    · have hsame : tally i (update p i x) = tally i p := by
        refine tally_congr ?_
        intro j hj
        rw [update_of_ne (by omega)]
      rw [hsame, update_self]
      omega

theorem tally_eq_zero : tally n p = 0 ↔ ∀ i < n, p i = false := by
  simp [tally]

theorem tally_le (n : ℕ) (p : ℕ → Bool) : tally n p ≤ n := by
  have h := List.countP_le_length (p := p) (l := List.range n)
  rwa [List.length_range] at h

theorem tally_mono (h : ∀ i < n, p i = true → q i = true) : tally n p ≤ tally n q :=
  List.countP_mono_left fun i hi => h i (List.mem_range.mp hi)

theorem tally_pos : 0 < tally n p ↔ ∃ i < n, p i = true := by
  simp [tally, List.countP_pos_iff]

theorem tally_eq_length (n : ℕ) (p : ℕ → Bool) : tally n p = ((List.range n).filter p).length :=
  List.countP_eq_length_filter

/-- Every slot is marked by one of three marks that exclude each other. -/
theorem tally_three {r : ℕ → Bool} (h : ∀ i < n, (p i).toNat + (q i).toNat + (r i).toNat = 1) :
    tally n p + tally n q + tally n r = n := by
  induction n with
  | zero => rfl
  | succ n ih =>
    have hrest := ih (fun i hi => h i (by omega))
    have hlast := h n (by omega)
    rw [tally_succ, tally_succ, tally_succ]
    omega

/-- The slots that hold something are as many as the elements. -/
theorem tally_isSome (n : ℕ) (f : ℕ → Option α) :
    tally n (fun i => (f i).isSome) = (contents n f).length := by
  induction n with
  | zero => rfl
  | succ n ih =>
    rw [tally_succ, contents_succ, List.length_append, ih]
    cases f n <;> rfl

/-! ### Probing until a slot stops it -/

/-- The buckets looked at from probe `probe` on, with `left` probes to go: up to the first that
    stops the search. -/
def probes (n start : ℕ) (stop : ℕ → Bool) : ℕ → ℕ → List ℕ
  | 0, _ => []
  | left + 1, probe =>
    bucket n start probe ::
      if stop (bucket n start probe) then [] else probes n start stop left (probe + 1)

section Stop
variable {start : ℕ} {stop : ℕ → Bool}

variable {left probe i : ℕ}

theorem mem_probes (h : i ∈ probes n start stop left probe) :
    ∃ d, probe ≤ d ∧ d < probe + left ∧ bucket n start d = i := by
  induction left generalizing probe with
  | zero => simp [probes] at h
  | succ left ih =>
    rw [probes] at h
    rcases List.mem_cons.mp h with rfl | h
    · exact ⟨probe, Nat.le_refl _, by omega, rfl⟩
    · split at h
      · simp at h
      · obtain ⟨d, hle, hlt, hd⟩ := ih h
        exact ⟨d, by omega, by omega, hd⟩

theorem nodup_probes (hn : probe + left ≤ n) : (probes n start stop left probe).Nodup := by
  induction left generalizing probe with
  | zero => exact List.nodup_nil
  | succ left ih =>
    rw [probes, List.nodup_cons]
    split
    · exact ⟨by simp, List.nodup_nil⟩
    · refine ⟨?_, ih (by omega)⟩
      intro hmem
      obtain ⟨d, hle, hlt, hd⟩ := mem_probes hmem
      have := bucket_inj (by omega) (by omega) hd
      omega

/-- Only the last bucket can stop the search. -/
theorem not_stop_of_mem_dropLast (h : i ∈ (probes n start stop left probe).dropLast) :
    stop i = false := by
  induction left generalizing probe with
  | zero => simp [probes] at h
  | succ left ih =>
    rw [probes] at h
    split at h
    · simp at h
    · next hgo =>
      cases hrest : probes n start stop left (probe + 1) with
      | nil => simp [hrest] at h
      | cons j rest =>
        rw [hrest, List.dropLast_cons_cons] at h
        rcases List.mem_cons.mp h with rfl | h
        · exact Bool.eq_false_iff.mpr hgo
        · exact ih (by rw [hrest]; exact h)

/-- The search looks at no more buckets than do not stop it, and one more. -/
theorem length_probes_le (hn : probe + left ≤ n) :
    (probes n start stop left probe).length ≤ tally n (fun i => !stop i) + 1 := by
  have hsub : (probes n start stop left probe).dropLast ⊆ (List.range n).filter (fun i => !stop i) := by
    intro i hi
    obtain ⟨d, -, hlt, rfl⟩ := mem_probes ((List.dropLast_sublist _).subset hi)
    rw [List.mem_filter, List.mem_range]
    exact ⟨bucket_lt (by omega) start d, by simp [not_stop_of_mem_dropLast hi]⟩
  have hnodup : (probes n start stop left probe).dropLast.Nodup :=
    (nodup_probes hn).sublist (List.dropLast_sublist _)
  have hlen := (List.subperm_of_subset hnodup hsub).length_le
  rw [List.length_dropLast, ← tally_eq_length] at hlen
  omega

/-- A search that can stop does. -/
theorem getLast_probes {d : ℕ} (hle : probe ≤ d) (hlt : d < probe + left)
    (hd : stop (bucket n start d) = true) :
    ∃ i, (probes n start stop left probe).getLast? = some i ∧ stop i = true := by
  induction left generalizing probe with
  | zero => omega
  | succ left ih =>
    rw [probes]
    split
    · next hstop => exact ⟨_, rfl, hstop⟩
    · next hgo =>
      have hne : probe ≠ d := by
        rintro rfl
        exact hgo hd
      obtain ⟨i, hlast, hi⟩ := ih (show probe + 1 ≤ d by omega) (by omega)
      refine ⟨i, ?_, hi⟩
      rw [List.getLast?_cons, hlast]
      rfl

end Stop

end Metl.Schemes
