import Metl.Text.FixedString

/-! The order and the hash of strings.

    The loops stop at the first difference, at the end of the shorter string or at the terminator of
    a C string; what is stale behind an end is not read. -/

namespace Metl.FixedString
open Function

/-! ### Comparisons -/

/-- `s[i]`, which asserts that there is such a character. -/
def Buffer.at? (s : Buffer) (i : ℕ) : Option UInt8 := if i < s.size then s.storage[i]? else none

/-- The loop of `operator==` from its `i`th trip on. -/
def equalLoop (lhs rhs : Buffer) : ℕ → ℕ → Option Bool
  | 0, _ => some true
  | left + 1, i => do
    let l ← lhs.at? i
    let r ← rhs.at? i
    if l ≠ r then return false
    equalLoop lhs rhs left (i + 1)

/-- `operator==`, for any two capacities. -/
def equal (lhs rhs : Buffer) : Option Bool :=
  if lhs.size ≠ rhs.size then some false else equalLoop lhs rhs lhs.size 0

/-- The loop of `operator<` from its `i`th trip on. -/
def lessLoop (lhs rhs : Buffer) : ℕ → ℕ → Option Bool
  | 0, _ => some (decide (lhs.size < rhs.size))
  | left + 1, i => do
    let l ← lhs.at? i
    let r ← rhs.at? i
    if l ≠ r then return decide (l < r)
    lessLoop lhs rhs left (i + 1)

/-- `operator<`, for any two capacities. -/
def less (lhs rhs : Buffer) : Option Bool :=
  lessLoop lhs rhs (if lhs.size < rhs.size then lhs.size else rhs.size) 0

/-- The loop of `compare_c` from its `i`th trip on. -/
def compareLoop (s : Buffer) (text : List UInt8) : ℕ → ℕ → Option ℤ
  | 0, _ => text[s.size]?.map fun ch => if ch = 0 then 0 else -1
  | left + 1, i => do
    let theirs ← text[i]?
    if theirs = 0 then return 1
    let mine ← s.storage[i]?
    if mine ≠ theirs then return if mine < theirs then -1 else 1
    compareLoop s text left (i + 1)

def compareC (s : Buffer) (text : List UInt8) : Option ℤ := compareLoop s text s.size 0

inductive Operator where
  | eq
  | lt
  | gt
  | le
  | ge

/-- `lhs op rhs` for two strings. -/
def Operator.strings (lhs rhs : Buffer) : Operator → Option Bool
  | .eq => equal lhs rhs
  | .lt => less lhs rhs
  | .gt => less rhs lhs
  | .le => (less rhs lhs).map (!·)
  | .ge => (less lhs rhs).map (!·)

/-- `lhs op text` for a string and a C string. -/
def Operator.stringText (lhs : Buffer) (text : List UInt8) : Operator → Option Bool
  | .eq => (compareC lhs text).map (· = 0)
  | .lt => (compareC lhs text).map (· < 0)
  | .gt => (compareC lhs text).map (· > 0)
  | .le => (compareC lhs text).map (· ≤ 0)
  | .ge => (compareC lhs text).map (· ≥ 0)

/-- `text op rhs` for a C string and a string. -/
def Operator.textString (text : List UInt8) (rhs : Buffer) : Operator → Option Bool
  | .eq => (compareC rhs text).map (· = 0)
  | .lt => (compareC rhs text).map (· > 0)
  | .gt => (compareC rhs text).map (· < 0)
  | .le => (compareC rhs text).map (· ≥ 0)
  | .ge => (compareC rhs text).map (· ≤ 0)

/-- The order of lists of bytes. -/
def Operator.relates (a b : List UInt8) : Operator → Bool
  | .eq => a = b
  | .lt => a < b
  | .gt => b < a
  | .le => a ≤ b
  | .ge => b ≤ a

variable {s t : Buffer} {cap capT i : ℕ} {text l : List UInt8}

theorem Buffer.at_eq (s : Buffer) (i : ℕ) : s.at? i = s.contents[i]? := by
  unfold Buffer.at? Buffer.contents
  split
  · next hi => rw [List.getElem?_take_of_lt hi]
  · next hi => rw [List.getElem?_take_eq_none (Nat.le_of_not_lt hi)]

/-- The loops go down two lists side by side. -/
theorem drop_eq_cons {l : List UInt8} (h : i < l.length) :
    ∃ ch, l[i]? = some ch ∧ l.drop i = ch :: l.drop (i + 1) :=
  ⟨l[i], List.getElem?_eq_getElem h, List.drop_eq_getElem_cons h⟩

section

variable (hs : Sound cap s)
include hs

theorem equalLoop_spec (ht : Sound capT t) (hsize : s.size = t.size) : ∀ left i, i + left = s.size →
      equalLoop s t left i = some (decide (s.contents.drop i = t.contents.drop i)) := by
  have hlenS := hs.length_contents
  have hlenT := ht.length_contents
  intro left
  induction left with
  | zero =>
    intro i hi
    rw [List.drop_eq_nil_of_le (by omega), List.drop_eq_nil_of_le (by omega)]
    rfl
  | succ left ih =>
    intro i hi
    obtain ⟨x, hx, hdropS⟩ := drop_eq_cons (show i < s.contents.length by omega)
    obtain ⟨y, hy, hdropT⟩ := drop_eq_cons (show i < t.contents.length by omega)
    rw [equalLoop, Buffer.at_eq, Buffer.at_eq, hx, hy, hdropS, hdropT]
    change ite _ _ _ = _
    rw [ih (i + 1) (by omega)]
    rcases eq_or_ne x y with rfl | hne
    · simp
    · simp [hne]

theorem equal_spec (ht : Sound capT t) : equal s t = some (decide (s.contents = t.contents)) := by
  unfold equal
  split
  · next hne =>
    have hcontents : s.contents ≠ t.contents := by
      intro heq
      rw [← hs.length_contents, ← ht.length_contents, heq] at hne
      exact hne rfl
    simp [hcontents]
  · next heq => exact equalLoop_spec hs ht (not_not.mp heq) _ 0 (Nat.zero_add _)

theorem lessLoop_spec (ht : Sound capT t) : ∀ left i, i + left = min s.size t.size →
      lessLoop s t left i = some (decide (s.contents.drop i < t.contents.drop i)) := by
  have hlenS := hs.length_contents
  have hlenT := ht.length_contents
  intro left
  induction left with
  | zero =>
    intro i hi
    rcases Nat.lt_or_ge s.size t.size with hlt | hge
    · obtain ⟨y, -, hdropT⟩ := drop_eq_cons (show i < t.contents.length by omega)
      rw [List.drop_eq_nil_of_le (by omega), hdropT, lessLoop]
      simp [hlt]
    · rw [List.drop_eq_nil_of_le (show t.contents.length ≤ i by omega), lessLoop]
      simp [hge]
  | succ left ih =>
    intro i hi
    obtain ⟨x, hx, hdropS⟩ := drop_eq_cons (show i < s.contents.length by omega)
    obtain ⟨y, hy, hdropT⟩ := drop_eq_cons (show i < t.contents.length by omega)
    rw [lessLoop, Buffer.at_eq, Buffer.at_eq, hx, hy, hdropS, hdropT]
    change ite _ _ _ = _
    rw [ih (i + 1) (by omega)]
    rcases eq_or_ne x y with rfl | hne
    · simp
    · simp [List.cons_lt_cons_iff, hne]

theorem less_spec (ht : Sound capT t) : less s t = some (decide (s.contents < t.contents)) := by
  refine lessLoop_spec hs ht _ 0 ?_
  split <;> omega

theorem strings_spec (ht : Sound capT t) (op : Operator) :
    op.strings s t = some (op.relates s.contents t.contents) := by
  cases op <;> simp [Operator.strings, Operator.relates, equal_spec hs ht, less_spec hs ht,
    less_spec ht hs, ← List.not_lt]

end

/-- The sign of a comparison. -/
structure Signs (r : ℤ) (a b : List UInt8) : Prop where
  neg : r < 0 ↔ a < b
  zero : r = 0 ↔ a = b
  pos : r > 0 ↔ b < a

theorem compareLoop_spec (hs : Sound cap s) (htext : cString text = some l) :
    ∀ left i, i + left = s.size → i ≤ l.length →
      ∃ r, compareLoop s text left i = some r ∧ Signs r (s.contents.drop i) (l.drop i) := by
  have hlenS := hs.length_contents
  obtain ⟨hnot, rest, rfl⟩ := cString_eq_some htext
  intro left
  induction left with
  | zero =>
    intro i hi hl
    rw [List.drop_eq_nil_of_le (by omega), compareLoop]
    rcases Nat.lt_or_ge i l.length with hlt | hge
    · obtain ⟨y, hy, hdrop⟩ := drop_eq_cons hlt
      have hyne : y ≠ 0 := fun h => hnot (h ▸ List.mem_of_getElem? hy)
      rw [List.getElem?_append_left (by omega), show s.size = i by omega, hy, hdrop]
      exact ⟨-1, by simp [hyne], by simp, by simp, by simp⟩
    · rw [List.drop_eq_nil_of_le hge, List.getElem?_append_right (by omega),
        show s.size - l.length = 0 by omega]
      exact ⟨0, rfl, by simp, by simp, by simp⟩
  | succ left ih =>
    intro i hi hl
    obtain ⟨x, hx, hdropS⟩ := drop_eq_cons (show i < s.contents.length by omega)
    have hx' : s.storage[i]? = some x := by
      rwa [Buffer.contents, List.getElem?_take_of_lt (by omega)] at hx
    rcases Nat.lt_or_ge i l.length with hlt | hge
    · obtain ⟨y, hy, hdrop⟩ := drop_eq_cons hlt
      have hyne : y ≠ 0 := fun h => hnot (h ▸ List.mem_of_getElem? hy)
      rw [compareLoop, List.getElem?_append_left (by omega), hy, hdropS, hdrop]
      change ∃ r, ite _ _ _ = _ ∧ _
      rw [if_neg hyne, hx']
      change ∃ r, ite _ _ _ = _ ∧ _
      rcases eq_or_ne x y with rfl | hne
      · obtain ⟨r, hr, hneg, hzero, hpos⟩ := ih (i + 1) (by omega) hlt
        refine ⟨r, by rw [if_neg (not_not.mpr rfl), hr], ?_, ?_, ?_⟩
        · simp [hneg]
        · simp [hzero]
        · simp [hpos]
      · rw [if_pos hne]
        rcases UInt8.lt_or_lt_of_ne hne with hlt | hgt
        · refine ⟨-1, by rw [if_pos hlt]; rfl, ?_, ?_, ?_⟩
          · simp [List.cons_lt_cons_iff, hlt]
          · simp [hne]
          · simp [List.cons_lt_cons_iff, hne.symm, UInt8.lt_asymm hlt]
        · refine ⟨1, by rw [if_neg (UInt8.lt_asymm hgt)]; rfl, ?_, ?_, ?_⟩
          · simp [List.cons_lt_cons_iff, hne, UInt8.lt_asymm hgt]
          · simp [hne]
          · simp [List.cons_lt_cons_iff, hgt]
    · rw [compareLoop, List.getElem?_append_right hge, show i - l.length = 0 by omega, hdropS,
        List.drop_eq_nil_of_le hge]
      exact ⟨1, rfl, by simp, by simp, by simp⟩

theorem compareC_spec (hs : Sound cap s) (htext : cString text = some l) :
    ∃ r, compareC s text = some r ∧ Signs r s.contents l :=
  compareLoop_spec hs htext s.size 0 (Nat.zero_add _) (Nat.zero_le _)

theorem text_spec (hs : Sound cap s) (htext : cString text = some l) (op : Operator) :
    op.stringText s text = some (op.relates s.contents l) ∧
      op.textString text s = some (op.relates l s.contents) := by
  obtain ⟨r, hr, hneg, hzero, hpos⟩ := compareC_spec hs htext
  have hle : r ≤ 0 ↔ s.contents ≤ l := by rw [← Int.not_lt, ← List.not_lt, ← hpos, gt_iff_lt]
  have hge : r ≥ 0 ↔ l ≤ s.contents := by rw [ge_iff_le, ← Int.not_lt, ← List.not_lt, hneg]
  cases op <;> simp only [Operator.stringText, Operator.textString, Operator.relates, hr,
    Option.map_some, hneg, hzero, hpos, hle, hge, @eq_comm _ l, and_self]

/-! ### Hashes -/

/-- The FNV-1a constants of a width of `std::size_t`. -/
structure FnvConstants (width : ℕ) where
  offset : BitVec width
  prime : BitVec width

def fnv64 : FnvConstants 64 := ⟨0xcbf29ce484222325, 0x100000001b3⟩

def fnv32 : FnvConstants 32 := ⟨0x811c9dc5, 0x01000193⟩

variable {width : ℕ} (k : FnvConstants width)

/-- A trip of the loop of `fnv1a`. -/
def FnvConstants.mix (hash : BitVec width) (byte : UInt8) : BitVec width :=
  (hash ^^^ BitVec.ofNat width byte.toNat) * k.prime

/-- The loop of `fnv1a` from its `i`th trip on. -/
def fnv1aLoop (data : List UInt8) : ℕ → ℕ → BitVec width → Option (BitVec width)
  | 0, _, hash => some hash
  | left + 1, i, hash => data[i]?.bind fun byte => fnv1aLoop data left (i + 1) (k.mix hash byte)

def fnv1a (data : List UInt8) (len : ℕ) : Option (BitVec width) := fnv1aLoop k data len 0 k.offset

/-- The length of a `char` array: up to its first terminator, or its end. -/
def arrayLength : List UInt8 → ℕ → ℕ
  | [], len => len
  | ch :: array, len => if ch ≠ 0 then arrayLength array (len + 1) else len

variable {C : Type}

/-- What `fnv1a_hash` takes characters from. -/
inductive Text (C : Type) where
  | string (c : C)
  | cString (text : Source C)
  | array (bytes : List UInt8)

def fnv1aHash (w : World C) : Text C → Option (BitVec width)
  | .string c => fnv1a k (w c).storage (w c).size
  | .cString text => (stringLength (text.memory w) 0).bind (fnv1a k (text.memory w))
  | .array bytes => fnv1a k bytes (arrayLength bytes 0)

/-- The bytes that a text denotes. -/
def Text.denotes (w : World C) : Text C → Option (List UInt8)
  | .string c => some (w c).contents
  | .cString text => FixedString.cString (text.memory w)
  | .array bytes => some (bytes.takeWhile (· ≠ 0))

variable {data : List UInt8} {len : ℕ} {capacity : C → ℕ} {w : World C}

theorem fnv1aLoop_spec (hlen : len ≤ data.length) : ∀ left i hash, i + left = len →
      fnv1aLoop k data left i hash = some (((data.take len).drop i).foldl k.mix hash) := by
  have htake : (data.take len).length = len := by
    rw [List.length_take]
    omega
  intro left
  induction left with
  | zero =>
    intro i hash hi
    rw [List.drop_eq_nil_of_le (by omega)]
    rfl
  | succ left ih =>
    intro i hash hi
    obtain ⟨x, hx, hdrop⟩ := drop_eq_cons (show i < (data.take len).length by omega)
    rw [List.getElem?_take_of_lt (by omega)] at hx
    rw [fnv1aLoop, hx, hdrop, List.foldl_cons]
    exact ih (i + 1) _ (by omega)

theorem fnv1a_spec (hlen : len ≤ data.length) :
    fnv1a k data len = some ((data.take len).foldl k.mix k.offset) :=
  fnv1aLoop_spec k hlen len 0 _ (Nat.zero_add _)

theorem arrayLength_eq (array : List UInt8) (n : ℕ) :
    arrayLength array n = n + (array.takeWhile (· ≠ 0)).length := by
  induction array generalizing n with
  | nil => rfl
  | cons ch array ih =>
    rcases eq_or_ne ch 0 with rfl | hch
    · rfl
    · rw [arrayLength, if_pos hch, ih, List.takeWhile_cons_of_pos (by simpa using hch), List.length_cons]
      omega

/-- The hash is a function of the bytes that are denoted. -/
theorem fnv1aHash_spec (h : AllSound capacity w) {a : Text C} (ha : a.denotes w = some l) :
    fnv1aHash k w a = some (l.foldl k.mix k.offset) := by
  cases a with
  | string c =>
    cases ha
    have hlen := (h c).length
    have hsize := (h c).size
    exact fnv1a_spec k (by omega)
  | cString text =>
    obtain ⟨hle, htake⟩ := cString_take ha
    rw [fnv1aHash, stringLength_eq, show FixedString.cString (text.memory w) = some l from ha]
    change fnv1a k (text.memory w) (0 + l.length) = _
    rw [Nat.zero_add, fnv1a_spec k hle, htake]
  | array bytes =>
    cases ha
    have hstart := List.takeWhile_prefix (p := fun ch : UInt8 => decide (ch ≠ 0)) (l := bytes)
    rw [fnv1aHash, arrayLength_eq, Nat.zero_add, fnv1a_spec k hstart.length_le,
      ← List.prefix_iff_eq_take.mp hstart]

/-! ### The contract -/

/-- Comparisons and hashes go by the contents. -/
structure Consistent (w : World C) : Prop where
  strings : ∀ (op : Operator) c d,
    op.strings (w c) (w d) = some (op.relates (contents w c) (contents w d))
  texts : ∀ (op : Operator) c (text : Source C) l, cString (text.memory w) = some l →
    op.stringText (w c) (text.memory w) = some (op.relates (contents w c) l) ∧
      op.textString (text.memory w) (w c) = some (op.relates l (contents w c))
  hashes64 : ∀ (a b : Text C) l, a.denotes w = some l → b.denotes w = some l →
    ∃ hash, fnv1aHash fnv64 w a = some hash ∧ fnv1aHash fnv64 w b = some hash
  hashes32 : ∀ (a b : Text C) l, a.denotes w = some l → b.denotes w = some l →
    ∃ hash, fnv1aHash fnv32 w a = some hash ∧ fnv1aHash fnv32 w b = some hash

theorem AllSound.consistent (h : AllSound capacity w) : Consistent w :=
  ⟨fun op c d => strings_spec (h c) (h d) op, fun op c _ _ htext => text_spec (h c) htext op,
    fun _ _ _ ha hb => ⟨_, fnv1aHash_spec fnv64 h ha, fnv1aHash_spec fnv64 h hb⟩,
    fun _ _ _ ha hb => ⟨_, fnv1aHash_spec fnv32 h ha, fnv1aHash_spec fnv32 h hb⟩⟩

variable [DecidableEq C]

/-- Along a run of clean calls that stand for operations, every call does what its operation says,
    and the strings are sound and consistent throughout. -/
def Agrees (capacity : C → ℕ) : World C → List (Call C) → Prop
  | w, [] => AllSound capacity w ∧ Consistent w
  | w, call :: calls => (AllSound capacity w ∧ Consistent w) ∧
    ∀ op l answer, call.means w = some op → op.apply capacity (contents w) = some (l, answer) →
      call.Clean w → ∃ w', Serves capacity w call l answer w' ∧ Agrees capacity w' calls

/-- RUN: from sound strings. -/
theorem AllSound.agrees (calls : List (Call C)) :
    ∀ {w : World C}, AllSound capacity w → Agrees capacity w calls := by
  induction calls with
  | nil => exact fun h => ⟨h, h.consistent⟩
  | cons call calls ih =>
    refine fun h => ⟨⟨h, h.consistent⟩, fun op l answer hmeans happly hclean => ?_⟩
    obtain ⟨w', hserves⟩ := exec_serves h hmeans happly hclean
    exact ⟨w', hserves, ih hserves.2.1⟩

/-- CORRECT: contents, order and hash of the strings agree in every run of clean calls. -/
theorem contents_order_hash_agree (capacity : C → ℕ) (calls : List (Call C)) :
    (∀ c, contents (fresh capacity) c = []) ∧ Agrees capacity (fresh capacity) calls := by
  refine ⟨fun c => rfl, AllSound.agrees calls fun c => ⟨?_, Nat.zero_le _, rfl⟩⟩
  exact List.length_replicate

/-- A span over `"ab"` and its terminator, appended to the string itself: `copy_in` reads the third
    byte after it has written it. -/
theorem straddling_span_is_smeared : ∃ w w' : World Unit,
    Schemes.run (fun w call => (exec w call).map Prod.fst) (fresh fun _ => 5)
      [.tryPushBack () 97, .tryPushBack () 98] = some w ∧
    (Call.tryAppendSpan () (.inside () 0) 3).means w = some (.append () [97, 98, 0]) ∧
    exec w (.tryAppendSpan () (.inside () 0) 3) = some (w', true) ∧
    contents w () = [97, 98] ∧ contents w' () = [97, 98, 97, 98, 97] :=
  ⟨_, _, rfl, rfl, rfl, rfl, rfl⟩

end Metl.FixedString
