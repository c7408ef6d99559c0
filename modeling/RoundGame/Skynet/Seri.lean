import RoundGame.Lib.Framing
import RoundGame.Lib.LuaHeap

/-!
# Packing of Lua values

`luaseri_pack` of `lua-seri.c`: the arguments of a message are written one after the other, each behind a byte with its
type and a small number (the cookie). What is written goes to blocks of 128 bytes (`WriteBlock`), which `seri` puts
together at the end; `wb_push` appends to what was written (`push_spec`, `seri_spec`).

A table is written as its array part and its other fields, or as what its `__pairs` gives. The nesting is limited: a
value below `MAX_DEPTH` tables is not written. In `packOne` the levels are counted down, `0` is the level below the last
one.

`View` is what Lua tells about the tables of a heap: the order in which `lua_next` finds the fields, the lengths, of
which Lua promises little, and what the iterators of `__pairs` give. Numbers are little-endian; the lengths do not come
to the end of an `int`.
-/

namespace RoundGame.Skynet.Seri

open Framing LuaHeap

/-! ## Types -/

def TYPE_NIL : Nat := 0
def TYPE_BOOLEAN : Nat := 1
def TYPE_NUMBER : Nat := 2
def TYPE_NUMBER_ZERO : Nat := 0
def TYPE_NUMBER_BYTE : Nat := 1
def TYPE_NUMBER_WORD : Nat := 2
def TYPE_NUMBER_DWORD : Nat := 4
def TYPE_NUMBER_QWORD : Nat := 6
def TYPE_NUMBER_REAL : Nat := 8
def TYPE_USERDATA : Nat := 3
def TYPE_SHORT_STRING : Nat := 4
def TYPE_LONG_STRING : Nat := 5
def TYPE_TABLE : Nat := 6

def MAX_COOKIE : Nat := 32
def BLOCK_SIZE : Nat := 128
def MAX_DEPTH : Nat := 32

def COMBINE_TYPE (t v : Nat) : UInt8 := UInt8.ofNat (t ||| v <<< 3)

/-! ## Blocks -/

/-- `blocks`: those before the current one; `current`: what is written of the current one. -/
structure WriteBlock where
  blocks : List Bytes
  current : Bytes
  len : Nat

namespace WriteBlock

def init : WriteBlock := ⟨[], [], 0⟩

def ptr (b : WriteBlock) : Nat := b.current.length

/-- A new block is linked behind the current one. -/
def alloc (b : WriteBlock) : WriteBlock := { b with blocks := b.blocks ++ [b.current], current := [] }

/-- `n` bytes of the buffer are copied to the current block. -/
def copy (b : WriteBlock) (buffer : Bytes) (n : Nat) : WriteBlock :=
  { b with current := b.current ++ buffer.take n, len := b.len + n }

/-- From the label `_again` on; each round but the last fills a block. -/
def again (b : WriteBlock) : Nat → Bytes → WriteBlock
  | 0, _ => b
  | n + 1, buffer =>
    let b := b.alloc
    if b.ptr + buffer.length ≤ BLOCK_SIZE then b.copy buffer buffer.length
    else again (b.copy buffer (BLOCK_SIZE - b.ptr)) n (buffer.drop (BLOCK_SIZE - b.ptr))

def push (b : WriteBlock) (buffer : Bytes) : WriteBlock :=
  if b.ptr = BLOCK_SIZE then b.again (buffer.length + 1) buffer
  else if b.ptr + buffer.length ≤ BLOCK_SIZE then b.copy buffer buffer.length
  else
    let n := BLOCK_SIZE - b.ptr
    (b.copy buffer n).again (buffer.length + 1) (buffer.drop n)

/-- What was written. -/
def contents (b : WriteBlock) : Bytes := b.blocks.flatten ++ b.current

structure Wf (b : WriteBlock) : Prop where
  full : ∀ x ∈ b.blocks, x.length = BLOCK_SIZE
  current : b.current.length ≤ BLOCK_SIZE
  len : b.len = b.contents.length

end WriteBlock

/-- The blocks are put together. -/
def seri : List Bytes → Nat → Bytes
  | b :: bs, len => if BLOCK_SIZE ≤ len then b.take BLOCK_SIZE ++ seri bs (len - BLOCK_SIZE) else b.take len
  | [], _ => []

section Blocks

variable {b : WriteBlock} {buffer : Bytes} {n : Nat}

namespace WriteBlock

theorem wf_init : init.Wf := ⟨nofun, by decide, rfl⟩

theorem contents_init : init.contents = [] := rfl

theorem contents_copy : (b.copy buffer n).contents = b.contents ++ buffer.take n := by
  simp [contents, copy]

theorem contents_alloc : b.alloc.contents = b.contents := by simp [contents, alloc]

theorem wf_copy (h : b.Wf) (hn : n ≤ buffer.length) (hfit : b.ptr + n ≤ BLOCK_SIZE) : (b.copy buffer n).Wf := by
  refine ⟨h.full, ?_, ?_⟩
  · simp only [copy, List.length_append, List.length_take]
    simp only [ptr] at hfit
    omega
  · rw [contents_copy, List.length_append, List.length_take, ← h.len]
    simp only [copy]
    omega

theorem wf_alloc (h : b.Wf) (hfull : b.ptr = BLOCK_SIZE) : b.alloc.Wf := by
  refine ⟨?_, Nat.zero_le _, by rw [contents_alloc]; exact h.len⟩
  intro x hx
  simp only [alloc, List.mem_append, List.mem_singleton] at hx
  rcases hx with hx | rfl
  · exact h.full x hx
  · exact hfull

theorem again_spec (h : b.Wf) (hfull : b.ptr = BLOCK_SIZE) (hn : buffer.length < n) :
    (b.again n buffer).Wf ∧ (b.again n buffer).contents = b.contents ++ buffer := by
  induction n generalizing b buffer with
  | zero => omega
  | succ n ih =>
    have halloc := wf_alloc h hfull
    have hptr : b.alloc.ptr = 0 := rfl
    rw [again]
    by_cases hfit : buffer.length ≤ BLOCK_SIZE
    · rw [if_pos (by omega)]
      refine ⟨wf_copy halloc (Nat.le_refl _) (by omega), ?_⟩
      rw [contents_copy, contents_alloc, List.take_length]
    · rw [if_neg (by omega), hptr, Nat.sub_zero]
      have hblock : 0 < BLOCK_SIZE := by decide
      have hlen : (buffer.drop BLOCK_SIZE).length < n := by
        rw [List.length_drop]
        omega
      have hle : BLOCK_SIZE ≤ buffer.length := by omega
      have hwf := wf_copy halloc hle (by omega)
      obtain ⟨hagain, hcontents⟩ := ih hwf (by simp [ptr, copy, alloc]; omega) hlen
      refine ⟨hagain, ?_⟩
      rw [hcontents, contents_copy, contents_alloc, List.append_assoc, List.take_append_drop]

/-- What is pushed comes behind what was written. -/
theorem push_spec (h : b.Wf) (buffer : Bytes) :
    (b.push buffer).Wf ∧ (b.push buffer).contents = b.contents ++ buffer := by
  have hcur := h.current
  rw [← ptr] at hcur
  rw [push]
  split
  · rename_i hfull
    exact again_spec h hfull (Nat.lt_succ_self _)
  · split
    · rename_i hfit
      refine ⟨wf_copy h (Nat.le_refl _) hfit, ?_⟩
      rw [contents_copy, List.take_length]
    · rename_i hroom hfit
      have hle : BLOCK_SIZE - b.ptr ≤ buffer.length := by omega
      have hwf := wf_copy h hle (by omega)
      have hfull : (b.copy buffer (BLOCK_SIZE - b.ptr)).ptr = BLOCK_SIZE := by
        simp only [ptr] at hcur hfit ⊢
        simp [copy]
        omega
      have hlen : (buffer.drop (BLOCK_SIZE - b.ptr)).length < buffer.length + 1 := by
        rw [List.length_drop]
        omega
      obtain ⟨hagain, hcontents⟩ := again_spec hwf hfull hlen
      refine ⟨hagain, ?_⟩
      rw [hcontents, contents_copy, List.append_assoc, List.take_append_drop]

end WriteBlock

theorem seri_flatten {bs : List Bytes} {last : Bytes} (hfull : ∀ x ∈ bs, x.length = BLOCK_SIZE)
    (hlast : last.length ≤ BLOCK_SIZE) : seri (bs ++ [last]) (bs.flatten ++ last).length = bs.flatten ++ last := by
  induction bs with
  | nil =>
    simp only [List.nil_append, List.flatten_nil, seri]
    split
    · have hlen : last.length = BLOCK_SIZE := by omega
      rw [← hlen, List.take_length, List.append_nil]
    · rw [List.take_length]
  | cons x bs ih =>
    have hx := hfull x List.mem_cons_self
    have hrest := ih fun y hy => hfull y (List.mem_cons_of_mem x hy)
    simp only [List.cons_append, List.flatten_cons, List.append_assoc, seri]
    rw [if_pos (by rw [List.length_append]; omega), ← hx, List.take_length, List.length_append, Nat.add_sub_cancel_left,
      hrest]

theorem seri_spec (h : b.Wf) : seri (b.blocks ++ [b.current]) b.len = b.contents := by
  rw [h.len]
  exact seri_flatten h.full h.current

end Blocks

/-! ## Writing values -/

def wbNil (b : WriteBlock) : WriteBlock := b.push [UInt8.ofNat TYPE_NIL]

def wbBoolean (b : WriteBlock) (boolean : Bool) : WriteBlock :=
  b.push [COMBINE_TYPE TYPE_BOOLEAN (if boolean then 1 else 0)]

def wbInteger (b : WriteBlock) (v : Int64) : WriteBlock :=
  if v = 0 then b.push [COMBINE_TYPE TYPE_NUMBER TYPE_NUMBER_ZERO]
  else if v ≠ v.toInt32.toInt64 then
    (b.push [COMBINE_TYPE TYPE_NUMBER TYPE_NUMBER_QWORD]).push (le 8 v.toUInt64.toNat)
  else if v < 0 then (b.push [COMBINE_TYPE TYPE_NUMBER TYPE_NUMBER_DWORD]).push (le 4 v.toInt32.toUInt32.toNat)
  else if v < 0x100 then (b.push [COMBINE_TYPE TYPE_NUMBER TYPE_NUMBER_BYTE]).push (le 1 v.toUInt64.toNat)
  else if v < 0x10000 then (b.push [COMBINE_TYPE TYPE_NUMBER TYPE_NUMBER_WORD]).push (le 2 v.toUInt64.toNat)
  else (b.push [COMBINE_TYPE TYPE_NUMBER TYPE_NUMBER_DWORD]).push (le 4 v.toUInt64.toUInt32.toNat)

def wbReal (b : WriteBlock) (v : UInt64) : WriteBlock :=
  (b.push [COMBINE_TYPE TYPE_NUMBER TYPE_NUMBER_REAL]).push (le 8 v.toNat)

def wbPointer (b : WriteBlock) (v : UInt64) : WriteBlock := (b.push [UInt8.ofNat TYPE_USERDATA]).push (le 8 v.toNat)

def wbString (b : WriteBlock) (str : Bytes) : WriteBlock :=
  let len := str.length
  if len < MAX_COOKIE then
    let b := b.push [COMBINE_TYPE TYPE_SHORT_STRING len]
    if len > 0 then b.push str else b
  else
    let b :=
      if len < 0x10000 then (b.push [COMBINE_TYPE TYPE_LONG_STRING 2]).push (le 2 len)
      else (b.push [COMBINE_TYPE TYPE_LONG_STRING 4]).push (le 4 len)
    b.push str

/-! ## Packing -/

structure View (h : Heap) where
  next : Nat → List (Value × Value)
  next_perm : ∀ t, (next t).Perm (h.table t).entries
  rawlen : Nat → Nat
  rawlen_lt : ∀ t, rawlen t < 2 ^ 31
  rawlen_border : ∀ t, rawlen t = 0 ∨ h.rawget t (.integer (Int64.ofNat (rawlen t))) ≠ .nil
  pairs : Nat → Option (List (Value × Value))

section Pack

variable {h : Heap} (E : View h)

/-- The type of a table with the size of its array, which is written as an integer when it is no cookie. -/
def tableHeader (arraySize : Nat) (b : WriteBlock) : WriteBlock :=
  if arraySize ≥ MAX_COOKIE - 1 then
    wbInteger (b.push [COMBINE_TYPE TYPE_TABLE (MAX_COOKIE - 1)]) (Int64.ofNat arraySize)
  else b.push [COMBINE_TYPE TYPE_TABLE arraySize]

/-- `one` packs a value of the array. -/
def wbTableArray (one : WriteBlock → Value → Except String WriteBlock) (b : WriteBlock) (t : Nat) :
    Except String (Nat × WriteBlock) := do
  let arraySize := E.rawlen t
  let b ← (List.range' 1 arraySize).foldlM (fun b i => one b (h.rawget t (.integer (Int64.ofNat i))))
    (tableHeader arraySize b)
  return (arraySize, b)

/-- The field belongs to the array, which is written already. -/
def inArray (arraySize : Nat) : Value → Bool
  | .integer x => 0 < x ∧ x ≤ Int64.ofNat arraySize
  | _ => false

def wbTableHash (one : WriteBlock → Value → Except String WriteBlock) (b : WriteBlock) (t arraySize : Nat) :
    Except String WriteBlock := do
  let b ← (E.next t).foldlM (fun b e =>
    if inArray arraySize e.1 then .ok b
    else do
      let b ← one b e.1
      one b e.2) b
  return wbNil b

/-- The iterator gives the fields `ps`, and ends when it gives `nil`. -/
def metapairsLoop (one : WriteBlock → Value → Except String WriteBlock) :
    WriteBlock → List (Value × Value) → Except String WriteBlock
  | b, [] => .ok b
  | b, (k, v) :: ps =>
    if k = .nil then .ok b
    else do
      let b ← one b k
      let b ← one b v
      metapairsLoop one b ps

def wbTableMetapairs (one : WriteBlock → Value → Except String WriteBlock) (b : WriteBlock)
    (ps : List (Value × Value)) : Except String WriteBlock := do
  let b ← metapairsLoop one (b.push [COMBINE_TYPE TYPE_TABLE 0]) ps
  return wbNil b

def wbTable (one : WriteBlock → Value → Except String WriteBlock) (b : WriteBlock) (t : Nat) :
    Except String WriteBlock :=
  match E.pairs t with
  | some ps => wbTableMetapairs one b ps
  | none => do
    let (arraySize, b) ← wbTableArray E one b t
    wbTableHash E one b t arraySize

/-- At the depth `MAX_DEPTH + 1 - n`. -/
def packOne : Nat → WriteBlock → Value → Except String WriteBlock
  | 0, _, _ => .error "serialize can't pack too depth table"
  | _ + 1, b, .nil => .ok (wbNil b)
  | _ + 1, b, .integer x => .ok (wbInteger b x)
  | _ + 1, b, .number n => .ok (wbReal b n)
  | _ + 1, b, .boolean boolean => .ok (wbBoolean b boolean)
  | _ + 1, b, .string str => .ok (wbString b str)
  | _ + 1, b, .lightuserdata p => .ok (wbPointer b p)
  | n + 1, b, .table t => wbTable E (packOne n) b t
  | _ + 1, _, .other typename _ => .error ("Unsupport type " ++ typename ++ " to serialize")

def packFrom (b : WriteBlock) (vs : List Value) : Except String WriteBlock :=
  vs.foldlM (packOne E (MAX_DEPTH + 1)) b

def luaseriPack (vs : List Value) : Except String Bytes := do
  let b ← packFrom E .init vs
  return seri (b.blocks ++ [b.current]) b.len

end Pack

end RoundGame.Skynet.Seri
