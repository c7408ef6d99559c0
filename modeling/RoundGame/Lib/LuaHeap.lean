import Mathlib.Algebra.Group.Int.Defs
import Mathlib.Algebra.Group.Nat.Defs
import Mathlib.Logic.Function.Basic
import RoundGame.Lib.Fields

/-!
# Lua values and tables on a heap

The values of Lua with tables as references, and raw access to tables as the C functions of Lua have it.

- A key is never `nil`, NaN, or a float that stands for an integer (`IsKey`): `normal` turns such a float into the
  integer. A `Table` has keys of this kind only, and no field that is `nil`.
- `Heap.create` makes a new table, `rawget` and `rawset` get and set a field. A table is changed by `rawset` only
  (`table_set_of_ne`).
- `Extends h h'`: what was there in `h` is there unchanged in `h'`, which may have more tables.
- `Copy content h' lo hi v v'`: the value `v'` has in the heap `h'` the structure of `v` in a heap where a table `t` has
  the fields `content t`; all its tables are between `lo` and `hi`.
-/

namespace LuaHeap

open Function

inductive Value
  | nil
  | boolean (b : Bool)
  | integer (i : Int64)
  | number (bits : UInt64)
  | string (s : List UInt8)
  | lightuserdata (p : UInt64)
  | table (t : Nat)
  | other (typename : String) (id : Nat)
  deriving DecidableEq

/-! ## Floats -/

/-- The fields of a double: whether it is negative, its exponent and its fraction. -/
def floatParts (bits : UInt64) : Bool × Nat × Nat :=
  (2 ^ 63 ≤ bits.toNat, bits.toNat / 2 ^ 52 % 2 ^ 11, bits.toNat % 2 ^ 52)

def isNaN (bits : UInt64) : Bool :=
  let (_, e, f) := floatParts bits
  e = 2047 ∧ f ≠ 0

/-- The integer that is equal to the float, if there is one. -/
def floatToInteger (bits : UInt64) : Option Int64 :=
  let (neg, e, f) := floatParts bits
  if e = 2047 then none
  else
    let m := if e = 0 then f else 2 ^ 52 + f
    let e := max e 1
    if e < 1075 ∧ m % 2 ^ (1075 - e) ≠ 0 then none
    else
      let n := m * 2 ^ (e - 1075) / 2 ^ (1075 - e)
      let i : Int := if neg then -n else n
      if -2 ^ 63 ≤ i ∧ i < 2 ^ 63 then some (Int64.ofInt i) else none

/-! ## Tables -/

def IsKey : Value → Bool
  | .nil => false
  | .number bits => !isNaN bits && (floatToInteger bits).isNone
  | _ => true

/-- A float that is equal to an integer is the same key. -/
def normal : Value → Value
  | .number bits =>
    match floatToInteger bits with
    | some i => .integer i
    | none => .number bits
  | v => v

theorem normal_of_isKey {k : Value} (h : IsKey k = true) : normal k = k := by
  cases k with
  | number bits =>
    simp only [IsKey, Bool.and_eq_true, Option.isNone_iff_eq_none] at h
    simp [normal, h.2]
  | _ => rfl

structure Table extends Fields Value Value where
  keys_isKey : ∀ e ∈ entries, IsKey e.1 = true
  values_ne_nil : ∀ e ∈ entries, e.2 ≠ .nil

namespace Table

def empty : Table := ⟨.empty, nofun, nofun⟩

/-- A field that is not there is `nil`. -/
def index (t : Table) (k : Value) : Value := (t.get k).getD .nil

/-- What is assigned: `nil` takes the field out. -/
def field : Value → Option Value
  | .nil => none
  | v => some v

theorem field_ne_nil {v w : Value} (h : field v = some w) : w ≠ .nil := by
  cases v <;> cases h <;> exact Value.noConfusion

theorem mem_putEntries {k : Value} {v : Value} {l : List (Value × Value)} {e : Value × Value}
    (h : e ∈ Fields.putEntries k (field v) l) : e ∈ l ∨ e.1 = k ∧ e.2 ≠ .nil := by
  cases hv : field v with
  | none =>
    rw [hv] at h
    exact Or.inl (List.mem_of_mem_filter h)
  | some w =>
    rw [hv, Fields.putEntries] at h
    split at h
    · obtain ⟨d, hd, heq⟩ := List.mem_map.1 h
      split at heq
      · rw [← heq]
        exact Or.inr ⟨rfl, field_ne_nil hv⟩
      · rw [← heq]
        exact Or.inl hd
    · rcases List.mem_append.1 h with h | h
      · exact Or.inl h
      · rw [List.mem_singleton.1 h]
        exact Or.inr ⟨rfl, field_ne_nil hv⟩

def set (t : Table) (k : Value) (hk : IsKey k = true) (v : Value) : Table where
  toFields := t.put k (field v)
  keys_isKey e he := by
    rcases mem_putEntries he with h | ⟨rfl, -⟩
    · exact t.keys_isKey e h
    · exact hk
  values_ne_nil e he := by
    rcases mem_putEntries he with h | ⟨-, h⟩
    · exact t.values_ne_nil e h
    · exact h

variable {t : Table} {k v : Value}

theorem entries_set_of_not_mem (hk : IsKey k = true) (hv : v ≠ .nil) (h : k ∉ t.entries.map Prod.fst) :
    (t.set k hk v).entries = t.entries ++ [(k, v)] := by
  have hfield : field v = some v := by cases v <;> first | rfl | exact absurd rfl hv
  simp [set, Fields.put, hfield, Fields.putEntries, h]

theorem entries_set_nil (hk : IsKey k = true) (h : k ∉ t.entries.map Prod.fst) :
    (t.set k hk .nil).entries = t.entries := by
  simp only [set, Fields.put, field, Fields.putEntries]
  rw [List.filter_eq_self]
  intro e he
  rw [decide_eq_true_eq]
  rintro rfl
  exact h (List.mem_map_of_mem he)

end Table

/-! ## The heap -/

/-- The tables below `brk` are those that were made. -/
structure Heap where
  brk : Nat
  table : Nat → Table

namespace Heap

def empty : Heap := ⟨0, fun _ => .empty⟩

def create (h : Heap) : Nat × Heap := (h.brk, { brk := h.brk + 1, table := update h.table h.brk .empty })

def rawget (h : Heap) (t : Nat) (k : Value) : Value := (h.table t).index (normal k)

def set (h : Heap) (t : Nat) (k : Value) (hk : IsKey k = true) (v : Value) : Heap :=
  { h with table := update h.table t ((h.table t).set k hk v) }

/-- The key is looked up before it is found that it cannot be one. -/
def rawset (h : Heap) (t : Nat) (k v : Value) : Except String Heap :=
  if hk : IsKey (normal k) = true then .ok (h.set t (normal k) hk v)
  else
    match k with
    | .nil => .error "table index is nil"
    | _ => .error "table index is NaN"

def rawseti (h : Heap) (t : Nat) (i : Int64) (v : Value) : Heap := h.set t (.integer i) rfl v

variable {h : Heap} {t u : Nat} {k v : Value}

@[simp] theorem brk_create : h.create.2.brk = h.brk + 1 := rfl

@[simp] theorem brk_set (hk : IsKey k = true) : (h.set t k hk v).brk = h.brk := rfl

@[simp] theorem table_set_self (hk : IsKey k = true) : (h.set t k hk v).table t = (h.table t).set k hk v :=
  update_self _ _ _

theorem table_set_of_ne (hk : IsKey k = true) (hne : u ≠ t) : (h.set t k hk v).table u = h.table u :=
  update_of_ne hne _ _

theorem rawset_of_isKey (hk : IsKey k = true) : h.rawset t k v = .ok (h.set t k hk v) := by
  have hn := normal_of_isKey hk
  have hk' : IsKey (normal k) = true := by rw [hn]; exact hk
  rw [rawset, dif_pos hk']
  simp only [hn]

/-- A field is set, or the key cannot be one. -/
theorem rawset_ok {h' : Heap} (hset : h.rawset t k v = .ok h') :
    ∃ hk : IsKey (normal k) = true, h' = h.set t (normal k) hk v := by
  rw [rawset] at hset
  split at hset
  · cases hset
    exact ⟨_, rfl⟩
  · split at hset <;> cases hset

end Heap

/-- The tables of `h` are as they were. -/
structure Extends (h h' : Heap) : Prop where
  brk : h.brk ≤ h'.brk
  table : ∀ t < h.brk, h'.table t = h.table t

namespace Extends

variable {h h' h'' : Heap}

theorem refl (h : Heap) : Extends h h := ⟨Nat.le_refl _, fun _ _ => rfl⟩

theorem trans (h1 : Extends h h') (h2 : Extends h' h'') : Extends h h'' :=
  ⟨Nat.le_trans h1.brk h2.brk, fun t ht =>
    (h2.table t (Nat.lt_of_lt_of_le ht h1.brk)).trans (h1.table t ht)⟩

theorem create (h : Heap) : Extends h h.create.2 :=
  ⟨Nat.le_succ _, fun _ ht => update_of_ne (Nat.ne_of_lt ht) _ _⟩

theorem set (h1 : Extends h h') {t : Nat} (ht : h.brk ≤ t) {k v : Value} (hk : IsKey k = true) :
    Extends h (h'.set t k hk v) :=
  ⟨h1.brk, fun u hu => by
    rw [Heap.table_set_of_ne hk (by omega)]
    exact h1.table u hu⟩

end Extends

/-! ## Copies -/

/-- `v'` has in `h'` the structure of `v`, where a table `t` has the fields `content t`. Its tables are from `lo` on and
below `hi`. -/
inductive Copy (content : Nat → List (Value × Value)) (h' : Heap) (lo hi : Nat) : Value → Value → Prop
  | nil : Copy content h' lo hi .nil .nil
  | boolean (b : Bool) : Copy content h' lo hi (.boolean b) (.boolean b)
  | integer (i : Int64) : Copy content h' lo hi (.integer i) (.integer i)
  | number (bits : UInt64) : Copy content h' lo hi (.number bits) (.number bits)
  | string (s : List UInt8) : Copy content h' lo hi (.string s) (.string s)
  | lightuserdata (p : UInt64) : Copy content h' lo hi (.lightuserdata p) (.lightuserdata p)
  | table {t t' : Nat} (es : List (Value × Value)) (hperm : es.Perm (content t))
      (hlen : es.length = (h'.table t').entries.length)
      (hkeys : ∀ (i : Nat) (k v k' v' : Value), es[i]? = some (k, v) →
        (h'.table t').entries[i]? = some (k', v') → Copy content h' lo hi k k')
      (hvalues : ∀ (i : Nat) (k v k' v' : Value), es[i]? = some (k, v) →
        (h'.table t').entries[i]? = some (k', v') → Copy content h' lo hi v v')
      (hlo : lo ≤ t') (hhi : t' < hi) : Copy content h' lo hi (.table t) (.table t')

namespace Copy

variable {content : Nat → List (Value × Value)} {h' h'' : Heap} {lo hi lo' hi' : Nat} {v v' : Value}

/-- The copy stays one when only other tables change. -/
theorem mono (hc : Copy content h' lo hi v v') (hlo : lo' ≤ lo) (hhi : hi ≤ hi')
    (hsame : ∀ t, lo ≤ t → t < hi → h''.table t = h'.table t) : Copy content h'' lo' hi' v v' := by
  induction hc with
  | nil => exact .nil
  | boolean b => exact .boolean b
  | integer i => exact .integer i
  | number bits => exact .number bits
  | string s => exact .string s
  | lightuserdata p => exact .lightuserdata p
  | table es hperm hlen _ _ hl hh ihkeys ihvalues =>
    have heq := hsame _ hl hh
    refine .table es hperm ?_ ?_ ?_ (Nat.le_trans hlo hl) (Nat.lt_of_lt_of_le hh hhi)
    · rw [heq]
      exact hlen
    · rw [heq]
      exact ihkeys
    · rw [heq]
      exact ihvalues

theorem isKey (hc : Copy content h' lo hi v v') (hk : IsKey v = true) : IsKey v' = true := by
  cases hc <;> exact hk

theorem eq_nil_iff (hc : Copy content h' lo hi v v') : v' = .nil ↔ v = .nil := by
  cases hc <;> simp

/-- What is not a table is its own copy; the copy of a table is one of the new tables. -/
theorem eq_or_table (hc : Copy content h' lo hi v v') :
    (∀ t, v ≠ .table t) ∧ v' = v ∨ ∃ t t', v = .table t ∧ v' = .table t' ∧ lo ≤ t' ∧ t' < hi := by
  cases hc with
  | table es hperm hlen hkeys hvalues hlo hhi => exact Or.inr ⟨_, _, rfl, rfl, hlo, hhi⟩
  | _ => exact Or.inl ⟨fun _ => Value.noConfusion, rfl⟩

end Copy

end LuaHeap
