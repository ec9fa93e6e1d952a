import Metl.Schemes.Run

/-! `fixed_string`: characters in a fixed buffer, a terminator behind them, stale bytes behind that.

        storage    a  b  c  0  ?  ?  ?
                   └ size ┘

    `copy_in` copies forwards, one character at a time, and its source may lie in the buffer that it
    writes. A source that is not written before it is read arrives as it was; a span that starts
    before the end of the string and runs past it does not. -/

namespace Metl.FixedString
open Function

/-! ### The strings -/

/-- `storage_`, with room for the terminator, and `size_`. -/
@[ext]
structure Buffer where
  storage : List UInt8
  size : ℕ
  deriving DecidableEq

def Buffer.capacity (s : Buffer) : ℕ := s.storage.length - 1

/-- The characters of a string. -/
def Buffer.contents (s : Buffer) : List UInt8 := s.storage.take s.size

variable {C : Type}

abbrev World (C : Type) := C → Buffer

/-- Where a `const char*` points: into a string, or to the bytes of an array elsewhere. -/
inductive Source (C : Type) where
  | inside (c : C) (offset : ℕ)
  | outside (array : List UInt8)

/-- What can be read through a pointer. -/
def Source.memory (w : World C) : Source C → List UInt8
  | .inside c offset => (w c).storage.drop offset
  | .outside array => array

/-- `string_length`; a text without a terminator is read past its end. -/
def stringLength : List UInt8 → ℕ → Option ℕ
  | [], _ => none
  | ch :: text, length => if ch ≠ 0 then stringLength text (length + 1) else some length

variable [DecidableEq C]

/-- `storage_[i] = ch` -/
def store (w : World C) (self : C) (i : ℕ) (ch : UInt8) : Option (World C) :=
  if i < (w self).storage.length then
    some (update w self ⟨(w self).storage.set i ch, (w self).size⟩)
  else none

/-- `copy_in` from its `i`th trip on, with so many trips left. -/
def copyIn (self : C) (offset : ℕ) (source : Source C) : ℕ → ℕ → World C → Option (World C)
  | 0, _, w => some w
  | left + 1, i, w => do
    let ch ← (source.memory w)[i]?
    let w ← store w self (offset + i) ch
    copyIn self offset source left (i + 1) w

/-- `size_ = size; storage_[size_] = '\0';` -/
def terminate (w : World C) (self : C) (size : ℕ) : Option (World C) :=
  store (update w self ⟨(w self).storage, size⟩) self size 0

def tryAssign (w : World C) (self : C) (text : Source C) : Option (World C × Bool) := do
  let inputSize ← stringLength (text.memory w) 0
  if inputSize > (w self).capacity then return (w, false)
  let w ← copyIn self 0 text inputSize 0 w
  let w ← terminate w self inputSize
  return (w, true)

/-- `try_append` of a span. -/
def tryAppendSpan (w : World C) (self : C) (text : Source C) (count : ℕ) : Option (World C × Bool) := do
  if ¬ count ≤ (w self).capacity - (w self).size then return (w, false)
  let w ← copyIn self (w self).size text count 0 w
  let w ← terminate w self ((w self).size + count)
  return (w, true)

/-- `try_append` of a C string: the same, with the length that it finds. -/
def tryAppend (w : World C) (self : C) (text : Source C) : Option (World C × Bool) := do
  let inputSize ← stringLength (text.memory w) 0
  tryAppendSpan w self text inputSize

def tryPushBack (w : World C) (self : C) (ch : UInt8) : Option (World C × Bool) := do
  if (w self).size = (w self).capacity then return (w, false)
  let w ← store w self (w self).size ch
  let w ← terminate w self ((w self).size + 1)
  return (w, true)

/-- `pop_back`; it asserts that there is a character. -/
def popBack (w : World C) (self : C) : Option (World C) :=
  if (w self).size = 0 then none else terminate w self ((w self).size - 1)

def clear (w : World C) (self : C) : Option (World C) := terminate w self 0

/-- The loop of `swap` from its `i`th trip on. -/
def swapLoop (self other : C) : ℕ → ℕ → World C → Option (World C)
  | 0, _, w => some w
  | left + 1, i, w => do
    let ch ← (w self).storage[i]?
    let theirs ← (w other).storage[i]?
    let w ← store w self i theirs
    let w ← store w other i ch
    swapLoop self other left (i + 1) w

def swap (w : World C) (self other : C) : Option (World C) := do
  let through := if (w self).size < (w other).size then (w other).size else (w self).size
  let w ← swapLoop self other (through + 1) 0 w
  let size := (w self).size
  let w := update w self ⟨(w self).storage, (w other).size⟩
  return update w other ⟨(w other).storage, size⟩

inductive Call (C : Type) where
  | tryAssign (self : C) (text : Source C)
  | tryAppend (self : C) (text : Source C)
  | tryAppendSpan (self : C) (text : Source C) (count : ℕ)
  | tryPushBack (self : C) (ch : UInt8)
  | popBack (self : C)
  | clear (self : C)
  | copy (self other : C)
  | swap (self other : C)

/-- A call; the functions that return nothing answer `true`. Only strings of one type, that is, of one
    capacity, are copied and swapped. -/
def exec (w : World C) : Call C → Option (World C × Bool)
  | .tryAssign self text => tryAssign w self text
  | .tryAppend self text => tryAppend w self text
  | .tryAppendSpan self text count => tryAppendSpan w self text count
  | .tryPushBack self ch => tryPushBack w self ch
  | .popBack self => (popBack w self).map (·, true)
  | .clear self => (clear w self).map (·, true)
  | .copy self other =>
    if (w self).capacity = (w other).capacity then some (update w self (w other), true) else none
  | .swap self other =>
    if (w self).capacity = (w other).capacity then (swap w self other).map (·, true) else none

/-- Strings as they are constructed, `storage_{}`. -/
def fresh (capacity : C → ℕ) : World C := fun c => ⟨List.replicate (capacity c + 1) 0, 0⟩

/-! ### What the calls are for -/

/-- Operations on lists of bytes. -/
inductive Op (C : Type) where
  | assign (self : C) (text : List UInt8)
  | append (self : C) (text : List UInt8)
  | removeLast (self : C)
  | copy (self other : C)
  | swap (self other : C)

def Op.apply (capacity : C → ℕ) (l : C → List UInt8) : Op C → Option ((C → List UInt8) × Bool)
  | .assign self text =>
    if text.length ≤ capacity self then some (update l self text, true) else some (l, false)
  | .append self text =>
    if (l self ++ text).length ≤ capacity self then some (update l self (l self ++ text), true)
    else some (l, false)
  | .removeLast self => if l self = [] then none else some (update l self (l self).dropLast, true)
  | .copy self other =>
    if capacity self = capacity other then some (update l self (l other), true) else none
  | .swap self other =>
    if capacity self = capacity other then some (l ∘ Equiv.swap self other, true) else none

/-- The C string that starts a piece of memory. -/
def cString (memory : List UInt8) : Option (List UInt8) :=
  if 0 ∈ memory then some (memory.takeWhile (· ≠ 0)) else none

/-- The operation that a call stands for, with the bytes that its source denotes when it is made. -/
def Call.means (w : World C) : Call C → Option (Op C)
  | .tryAssign self text => (cString (text.memory w)).map (.assign self)
  | .tryAppend self text => (cString (text.memory w)).map (.append self)
  | .tryAppendSpan self text count =>
    if count ≤ (text.memory w).length then some (.append self ((text.memory w).take count)) else none
  | .tryPushBack self ch => some (.append self [ch])
  | .popBack self => some (.removeLast self)
  | .clear self => some (.assign self [])
  | .copy self other => some (.copy self other)
  | .swap self other => some (.swap self other)

/-- No accepted span starts in the string that it is appended to and runs past its end. -/
def Call.Clean (w : World C) : Call C → Prop
  | .tryAppendSpan self text count => ∀ offset, text = .inside self offset →
    count ≤ (w self).capacity - (w self).size → offset + count ≤ (w self).size ∨ (w self).size ≤ offset
  | _ => True

structure Sound (capacity : ℕ) (s : Buffer) : Prop where
  length : s.storage.length = capacity + 1
  size : s.size ≤ capacity
  terminated : s.storage[s.size]? = some 0

/-! ### Writing characters -/

/-- The bytes of `l` with `bytes` written from `offset` on. -/
def overwrite (l : List UInt8) (offset : ℕ) (bytes : List UInt8) : List UInt8 :=
  l.mapIdx fun j ch => if offset ≤ j then bytes.getD (j - offset) ch else ch

section Overwrite

variable {l bytes : List UInt8} {offset i : ℕ} {ch : UInt8}

theorem overwrite_nil : overwrite l offset [] = l := by
  simp [overwrite, List.mapIdx_eq_iff]

@[simp]
theorem length_overwrite : (overwrite l offset bytes).length = l.length := List.length_mapIdx

theorem overwrite_else (h : i < offset ∨ offset + bytes.length ≤ i) :
    (overwrite l offset bytes)[i]? = l[i]? := by
  grind [overwrite]

theorem set_overwrite (hi : bytes.length = i) :
    (overwrite l offset bytes).set (offset + i) ch = overwrite l offset (bytes ++ [ch]) := by
  apply List.ext_getElem?
  intro j
  grind [overwrite]

end Overwrite

/-- A string after `bytes` have been written from `offset` on and terminated. -/
def Buffer.filled (s : Buffer) (offset : ℕ) (bytes : List UInt8) : Buffer :=
  ⟨overwrite s.storage offset (bytes ++ [0]), offset + bytes.length⟩

variable {capacity : C → ℕ} {w : World C} {self other : C} {s : Buffer} {source : Source C}
  {offset count cap i : ℕ} {bytes : List UInt8} {ch : UInt8}

theorem Sound.filled (h : Sound cap s) (hfit : offset + bytes.length ≤ cap) :
    Sound cap (s.filled offset bytes) := by
  have hlen := h.length
  refine ⟨length_overwrite.trans hlen, hfit, ?_⟩
  grind [Buffer.filled, overwrite]

theorem Sound.contents_filled (h : Sound cap s) (hfit : offset + bytes.length ≤ cap) :
    (s.filled offset bytes).contents = s.storage.take offset ++ bytes := by
  have hlen := h.length
  apply List.ext_getElem?
  intro j
  grind [Buffer.filled, Buffer.contents, overwrite]

theorem Sound.capacity_eq (h : Sound cap s) : s.capacity = cap := by
  rw [Buffer.capacity, h.length, Nat.add_sub_cancel]

theorem Sound.length_contents (h : Sound cap s) : s.contents.length = s.size := by
  have hlen := h.length
  have hsize := h.size
  rw [Buffer.contents, List.length_take]
  omega

theorem store_update {storage : List UInt8} {size : ℕ} (h : i < storage.length) :
    store (update w self ⟨storage, size⟩) self i ch = some (update w self ⟨storage.set i ch, size⟩) := by
  rw [store, update_self, if_pos h, update_idem]

theorem terminate_update (bytes : List UInt8) (size : ℕ)
    (h : offset + bytes.length < (w self).storage.length) :
    terminate (update w self ⟨overwrite (w self).storage offset bytes, size⟩) self
      (offset + bytes.length) = some (update w self ((w self).filled offset bytes)) := by
  rw [terminate, update_self, update_idem, store_update (by rwa [length_overwrite]),
    set_overwrite rfl, Buffer.filled]

/-- The copy is not ahead of its source: no byte is written before it is read. -/
def Behind (self : C) (offset : ℕ) (source : Source C) (count : ℕ) : Prop :=
  ∀ o, source = .inside self o → offset ≤ o ∨ o + count ≤ offset

section

variable (h : Behind self offset source count)
include h

/-- A byte still to be copied is as it was. -/
theorem Behind.read (size : ℕ) (hlt : bytes.length < count) :
    (source.memory (update w self ⟨overwrite (w self).storage offset bytes, size⟩))[bytes.length]? =
      (source.memory w)[bytes.length]? := by
  cases source with
  | outside array => rfl
  | inside c o =>
    simp only [Source.memory, List.getElem?_drop]
    rcases eq_or_ne c self with rfl | hne
    · rw [update_self]
      exact overwrite_else ((h o rfl).symm.imp (by omega) (by omega))
    · rw [update_of_ne hne]

/-- `copy_in` copies what its source denoted at the start. -/
theorem copyIn_spec (hfit : offset + count ≤ (w self).storage.length)
    (hmem : count ≤ (source.memory w).length) :
    ∀ left i, i + left = count → copyIn self offset source left i
        (update w self ⟨overwrite (w self).storage offset ((source.memory w).take i), (w self).size⟩) =
      some (update w self
        ⟨overwrite (w self).storage offset ((source.memory w).take count), (w self).size⟩) := by
  intro left
  induction left with
  | zero =>
    rintro i rfl
    rfl
  | succ left ih =>
    intro i hi
    have hlen : ((source.memory w).take i).length = i := List.length_take_of_le (by omega)
    have hmem : i < (source.memory w).length := by omega
    have hread := h.read (w := w) (w self).size (show ((source.memory w).take i).length < count by omega)
    rw [hlen, List.getElem?_eq_getElem hmem] at hread
    rw [copyIn, hread]
    change (store _ _ _ _).bind _ = _
    rw [store_update (by rw [length_overwrite]; omega), set_overwrite hlen, List.take_append_getElem hmem]
    exact ih (i + 1) (by omega)

/-- `copy_in` and what follows it. -/
theorem copyIn_terminate (hfit : offset + count < (w self).storage.length)
    (hmem : count ≤ (source.memory w).length) :
    ∃ w', copyIn self offset source count 0 w = some w' ∧ (w' self).size = (w self).size ∧
      terminate w' self (offset + count) =
        some (update w self ((w self).filled offset ((source.memory w).take count))) := by
  have hlen : ((source.memory w).take count).length = count := List.length_take_of_le hmem
  have hcopy := copyIn_spec h (Nat.le_of_lt hfit) hmem count 0 (Nat.zero_add _)
  rw [List.take_zero, overwrite_nil, update_eq_self] at hcopy
  have hend := terminate_update _ (w self).size (show offset + _ < _ from hlen.symm ▸ hfit)
  rw [hlen] at hend
  exact ⟨_, hcopy, by rw [update_self], hend⟩

end

/-! ### Every call -/

theorem cString_cons (hch : ch ≠ 0) : cString (ch :: bytes) = (cString bytes).map (ch :: ·) := by
  simp only [cString, List.mem_cons, hch.symm, false_or]
  split <;> simp [hch]

theorem stringLength_eq (text : List UInt8) (n : ℕ) :
    stringLength text n = (cString text).map (n + ·.length) := by
  induction text generalizing n with
  | nil => rfl
  | cons ch text ih =>
    rcases eq_or_ne ch 0 with rfl | hch
    · rfl
    · rw [stringLength, if_pos hch, ih, cString_cons hch, Option.map_map]
      congr 1
      funext l
      simp only [comp_apply, List.length_cons]
      omega

theorem cString_eq_some {memory l : List UInt8} (h : cString memory = some l) :
    0 ∉ l ∧ ∃ rest, memory = l ++ 0 :: rest := by
  induction memory generalizing l with
  | nil => cases h
  | cons ch memory ih =>
    rcases eq_or_ne ch 0 with rfl | hch
    · cases h
      exact ⟨List.not_mem_nil, memory, rfl⟩
    · rw [cString_cons hch] at h
      obtain ⟨l', hl', rfl⟩ := Option.map_eq_some_iff.mp h
      obtain ⟨hnot, rest, rfl⟩ := ih hl'
      exact ⟨by simp [hch.symm, hnot], rest, rfl⟩

theorem cString_take {memory l : List UInt8} (h : cString memory = some l) :
    l.length ≤ memory.length ∧ memory.take l.length = l := by
  obtain ⟨-, rest, rfl⟩ := cString_eq_some h
  rw [List.take_left, List.length_append]
  exact ⟨Nat.le_add_right _ _, rfl⟩

def contents (w : World C) : C → List UInt8 := fun c => (w c).contents

omit [DecidableEq C] in
/-- A C string that starts in a string ends in it. -/
theorem behind_of_cString {l : List UInt8} (h : Sound cap (w self))
    (hl : cString (source.memory w) = some l) : Behind self (w self).size source l.length := by
  rintro o rfl
  obtain ⟨hnot, rest, hmem⟩ := cString_eq_some hl
  rcases Nat.lt_or_ge (w self).size (o + l.length) with hlt | hge
  · refine .inl (Nat.le_of_not_lt fun ho => hnot ?_)
    have hzero : (l ++ 0 :: rest)[(w self).size - o]? = some 0 := by
      rw [← hmem, Source.memory, List.getElem?_drop, Nat.add_sub_of_le (by omega), h.terminated]
    rw [List.getElem?_append_left (by omega)] at hzero
    exact List.mem_of_getElem? hzero
  · exact .inr hge

theorem tryAppendSpan_spec (h : Sound cap (w self)) (hfit : count ≤ cap - (w self).size)
    (hmem : count ≤ (source.memory w).length) (hbehind : Behind self (w self).size source count) :
    tryAppendSpan w self source count = some
      (update w self ((w self).filled (w self).size ((source.memory w).take count)), true) := by
  have hlen := h.length
  have hsize := h.size
  obtain ⟨w', hcopy, hsame, hend⟩ := copyIn_terminate hbehind (by omega) hmem
  rw [tryAppendSpan, h.capacity_eq, if_neg (not_not.mpr hfit), hcopy]
  change (terminate w' self ((w' self).size + count)).bind _ = _
  rw [hsame, hend]
  rfl

/-- All strings keep to their capacities. -/
def AllSound (capacity : C → ℕ) (w : World C) : Prop := ∀ c, Sound (capacity c) (w c)

theorem AllSound.update (h : AllSound capacity w) (hs : Sound (capacity self) s) :
    AllSound capacity (update w self s) := by
  intro c
  rcases eq_or_ne c self with rfl | hne
  · rwa [update_self]
  · rw [update_of_ne hne]
    exact h c

theorem contents_update : contents (update w self s) = update (contents w) self s.contents :=
  comp_update Buffer.contents w self s

/-- The call does what the operation says. -/
def Serves (capacity : C → ℕ) (w : World C) (call : Call C) (l : C → List UInt8) (answer : Bool)
    (w' : World C) : Prop :=
  exec w call = some (w', answer) ∧ AllSound capacity w' ∧ contents w' = l ∧ (answer = false → w' = w)

variable {call : Call C} {l : C → List UInt8} {answer : Bool} {op : Op C}

section

variable (h : AllSound capacity w)
include h

theorem serves_filled (hfit : offset + bytes.length ≤ capacity self)
    (hexec : exec w call = some (update w self ((w self).filled offset bytes), true)) :
    Serves capacity w call (update (contents w) self ((w self).storage.take offset ++ bytes)) true
      (update w self ((w self).filled offset bytes)) := by
  refine ⟨hexec, h.update ((h self).filled hfit), ?_, by simp⟩
  rw [contents_update, (h self).contents_filled hfit]

theorem serves_refused (hexec : exec w call = some (w, false)) :
    Serves capacity w call (contents w) false w :=
  ⟨hexec, h, rfl, fun _ => rfl⟩

/-- Both forms of `try_append`. -/
theorem serves_append {call : Call C} (hexec : exec w call = tryAppendSpan w self source count)
    (hmem : count ≤ (source.memory w).length)
    (hbehind : count ≤ (w self).capacity - (w self).size → Behind self (w self).size source count)
    (happly : (Op.append self ((source.memory w).take count)).apply capacity (contents w) =
      some (l, answer)) : ∃ w', Serves capacity w call l answer w' := by
  have hs := h self
  have hsize := hs.size
  have hlen : ((source.memory w).take count).length = count := by
    rw [List.length_take]
    omega
  rw [hs.capacity_eq] at hbehind
  simp only [Op.apply, List.length_append, contents, hs.length_contents, hlen] at happly
  split at happly
  · cases happly
    rw [tryAppendSpan_spec hs (by omega) hmem (hbehind (by omega))] at hexec
    exact ⟨_, serves_filled h (by omega) hexec⟩
  · cases happly
    rw [tryAppendSpan, hs.capacity_eq, if_pos (by omega)] at hexec
    exact ⟨w, serves_refused h hexec⟩

theorem serves_assign {text : List UInt8} (htext : cString (source.memory w) = some text)
    (happly : (Op.assign self text).apply capacity (contents w) = some (l, answer)) :
    ∃ w', Serves capacity w (.tryAssign self source) l answer w' := by
  have hs := h self
  have hlen := hs.length
  obtain ⟨hmem, htake⟩ := cString_take htext
  have hexec : exec w (.tryAssign self source) = tryAssign w self source := rfl
  rw [tryAssign, stringLength_eq, htext, Option.map_some, Nat.zero_add] at hexec
  change _ = ite _ _ _ at hexec
  rw [hs.capacity_eq] at hexec
  simp only [Op.apply] at happly
  split at happly
  · next hfit =>
    cases happly
    have hbehind : Behind self 0 source text.length := fun o _ => .inl (Nat.zero_le o)
    obtain ⟨w', hcopy, -, hend⟩ := copyIn_terminate hbehind (by omega) hmem
    rw [Nat.zero_add] at hend
    rw [if_neg (by omega), hcopy] at hexec
    change _ = (terminate w' self text.length).bind _ at hexec
    rw [hend, htake] at hexec
    exact ⟨_, serves_filled h (by omega) hexec⟩
  · next hfit =>
    cases happly
    rw [if_pos (by omega)] at hexec
    exact ⟨w, serves_refused h hexec⟩

end

theorem terminate_eq (h : count ≤ (w self).size) (hs : Sound cap (w self)) :
    terminate w self count = some (update w self ((w self).filled count [])) := by
  have hlen := hs.length
  have hsize := hs.size
  have hend := terminate_update [] (w self).size (show count + 0 < (w self).storage.length by omega)
  rwa [overwrite_nil, update_eq_self] at hend

theorem tryPushBack_spec (h : Sound cap (w self)) (hroom : (w self).size < cap) :
    tryPushBack w self ch = some (update w self ((w self).filled (w self).size [ch]), true) := by
  have hlen := h.length
  have hstore : store w self (w self).size ch = some
      (update w self ⟨overwrite (w self).storage (w self).size [ch], (w self).size⟩) := by
    rw [store, if_pos (by omega), ← List.nil_append [ch], ← set_overwrite List.length_nil, overwrite_nil]
    rfl
  rw [tryPushBack, h.capacity_eq, if_neg (by omega), hstore]
  change (terminate (update w self _) self ((update w self _ self).size + [ch].length)).bind _ = _
  rw [update_self, terminate_update _ _ (by rw [List.length_singleton]; omega)]
  rfl

/-- A string after so many trips of the loop of `swap`. -/
structure Exchanged (w : World C) (a b : C) (i : ℕ) (v : World C) (c : C) : Prop where
  size : (v c).size = (w c).size
  length : (v c).storage.length = (w c).storage.length
  storage : ∀ j, (v c).storage[j]? =
    (w (if j < i then Equiv.swap a b c else c)).storage[j]?

theorem swapLoop_spec (hself : count ≤ (w self).storage.length)
    (hother : count ≤ (w other).storage.length) : ∀ left i v, i + left = count →
      (∀ c, Exchanged w self other i v c) →
      ∃ v', swapLoop self other left i v = some v' ∧ ∀ c, Exchanged w self other count v' c := by
  intro left
  induction left with
  | zero =>
    rintro i v rfl h
    exact ⟨v, rfl, h⟩
  | succ left ih =>
    intro i v hi h
    have hread (c) : (v c).storage[i]? = (w c).storage[i]? := by
      rw [(h c).storage, if_neg (Nat.lt_irrefl i)]
    have hlenSelf := (h self).length
    have hlenOther := (h other).length
    rw [swapLoop, hread, hread, List.getElem?_eq_getElem (by omega), List.getElem?_eq_getElem (by omega)]
    change ∃ v', (store _ _ _ _).bind _ = _ ∧ _
    rw [store, if_pos (by omega)]
    change ∃ v', (store _ _ _ _).bind _ = _ ∧ _
    rw [store, if_pos (by grind)]
    refine ih (i + 1) _ (by omega) fun c => ?_
    simp only [update_apply]
    have hc := h c
    refine ⟨?_, ?_, fun j => ?_⟩
    · grind [hc.size, (h self).size]
    · grind [hc.length]
    · grind [hc.storage j, (h self).storage j, (h other).storage j]

/-- A string that agrees with another one up to its terminator. -/
theorem Sound.of_agree {t : Buffer} (h : Sound cap t) (hlength : s.storage.length = t.storage.length)
    (hsize : s.size = t.size) (hstorage : ∀ j ≤ t.size, s.storage[j]? = t.storage[j]?) :
    Sound cap s ∧ s.contents = t.contents := by
  refine ⟨⟨hlength.trans h.length, hsize ▸ h.size, ?_⟩, List.ext_getElem? fun j => ?_⟩
  · rw [hsize, hstorage _ (Nat.le_refl _), h.terminated]
  · grind [Buffer.contents]

theorem serves_swap (h : AllSound capacity w) (hcap : capacity self = capacity other) :
    ∃ w', Serves capacity w (.swap self other) (contents w ∘ Equiv.swap self other) true w' := by
  have hs := h self
  have ho := h other
  rw [← hcap] at ho
  have hlenSelf := hs.length
  have hlenOther := ho.length
  have hsizeSelf := hs.size
  have hsizeOther := ho.size
  generalize hthrough : (if (w self).size < (w other).size then (w other).size else (w self).size) =
    through
  have hbound : (w self).size ≤ through ∧ (w other).size ≤ through ∧ through ≤ capacity self := by
    split at hthrough <;> omega
  obtain ⟨hleSelf, hleOther, hle⟩ := hbound
  obtain ⟨v, hloop, hv⟩ := swapLoop_spec (w := w) (show through + 1 ≤ (w self).storage.length by omega)
    (show through + 1 ≤ (w other).storage.length by omega) _ 0 w (Nat.zero_add _)
    fun c => ⟨rfl, rfl, fun j => by rw [if_neg (Nat.not_lt_zero j)]⟩
  have hend : ∃ w', exec w (.swap self other) = some (w', true) ∧ ∀ c,
      (w' c).storage = (v c).storage ∧ (w' c).size = (w (Equiv.swap self other c)).size := by
    rw [exec, if_pos (hs.capacity_eq.trans ho.capacity_eq.symm), swap, hthrough, hloop]
    refine ⟨_, rfl, fun c => ?_⟩
    simp only [update_apply]
    grind [(hv self).size, (hv other).size, (hv c).size]
  obtain ⟨w', hexec, hw'⟩ := hend
  have hagree (c) : Sound (capacity c) (w' c) ∧
      (w' c).contents = (w (Equiv.swap self other c)).contents := by
    have hsound : Sound (capacity c) (w (Equiv.swap self other c)) := by grind [h c]
    obtain ⟨hstorage, hsize⟩ := hw' c
    refine hsound.of_agree ?_ hsize fun j hj => ?_
    · rw [hstorage, (hv c).length, (h c).length, hsound.length]
    · rw [hstorage, (hv c).storage]
      grind
  exact ⟨w', hexec, fun c => (hagree c).1, funext fun c => (hagree c).2, by simp⟩

/-- STEP: a clean call does what the operation that it stands for says. -/
theorem exec_serves (h : AllSound capacity w) (hmeans : call.means w = some op)
    (happly : op.apply capacity (contents w) = some (l, answer)) (hclean : call.Clean w) :
    ∃ w', Serves capacity w call l answer w' := by
  cases call with
  | tryAssign self text =>
    obtain ⟨bytes, hbytes, rfl⟩ := Option.map_eq_some_iff.mp hmeans
    exact serves_assign h hbytes happly
  | tryAppend self text =>
    obtain ⟨bytes, hbytes, rfl⟩ := Option.map_eq_some_iff.mp hmeans
    obtain ⟨hmem, htake⟩ := cString_take hbytes
    rw [← htake] at happly
    have hexec : exec w (.tryAppend self text) = tryAppendSpan w self text bytes.length := by
      rw [exec, tryAppend, stringLength_eq, hbytes, Option.map_some, Nat.zero_add]
      rfl
    exact serves_append h hexec hmem (fun _ => behind_of_cString (h self) hbytes) happly
  | tryAppendSpan self text count =>
    obtain ⟨hmem, hop⟩ := Option.ite_none_right_eq_some.mp hmeans
    cases hop
    exact serves_append h rfl hmem (fun hfit o ho => (hclean o ho hfit).symm) happly
  | tryPushBack self ch =>
    cases hmeans
    have hs := h self
    have hsize := hs.size
    simp only [Op.apply, List.length_append, contents, hs.length_contents,
      List.length_singleton] at happly
    split at happly
    · next hroom =>
      cases happly
      exact ⟨_, serves_filled h hroom (tryPushBack_spec hs hroom)⟩
    · next hfull =>
      cases happly
      refine ⟨w, serves_refused h ?_⟩
      rw [exec, tryPushBack, hs.capacity_eq, if_pos (by omega)]
      rfl
  | popBack self =>
    cases hmeans
    have hs := h self
    have hsize := hs.size
    have hlen := hs.length_contents
    obtain ⟨hne, hpair⟩ := Option.ite_none_left_eq_some.mp happly
    cases hpair
    have hpos : (w self).size ≠ 0 := by
      rw [← hlen]
      exact fun hzero => hne (List.length_eq_zero_iff.mp hzero)
    have hexec : exec w (.popBack self) =
        some (update w self ((w self).filled ((w self).size - 1) []), true) := by
      rw [exec, popBack, if_neg hpos, terminate_eq (by omega) hs]
      rfl
    have hserves := serves_filled h (by simp only [List.length_nil]; omega) hexec
    rw [List.append_nil] at hserves
    rw [contents, List.dropLast_eq_take, hlen, Buffer.contents, List.take_take,
      Nat.min_eq_left (by omega)]
    exact ⟨_, hserves⟩
  | clear self =>
    cases hmeans
    cases happly
    have hexec : exec w (.clear self) = some (update w self ((w self).filled 0 []), true) := by
      rw [exec, clear, terminate_eq (Nat.zero_le _) (h self)]
      rfl
    exact ⟨_, serves_filled h (Nat.zero_le _) hexec⟩
  | copy self other =>
    cases hmeans
    obtain ⟨hcap, hpair⟩ := Option.ite_none_right_eq_some.mp happly
    cases hpair
    have hs : Sound (capacity self) (w other) := hcap ▸ h other
    refine ⟨update w self (w other), ?_, h.update hs, contents_update, by simp⟩
    rw [exec, if_pos ((h self).capacity_eq.trans hs.capacity_eq.symm)]
  | swap self other =>
    cases hmeans
    obtain ⟨hcap, hpair⟩ := Option.ite_none_right_eq_some.mp happly
    cases hpair
    exact serves_swap h hcap

end Metl.FixedString
