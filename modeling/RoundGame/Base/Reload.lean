import Mathlib.Data.Finset.Card
import RoundGame.Lib.Fields
import RoundGame.Lib.LuaSpec

/-!
# Hot reload

`reload` runs the new version of a file in the table of its module, and then merges each table it finds there into the
table that the module had under the same name before: `recu` goes through both tables at once and writes the fields of
the new one into the old one.

`recu` marks the name of a field as visited when it has dealt with it, one set of names for all tables of a reload. So
it deals with each name once, in one pair of tables, whatever other tables have a field of that name; and what it reads
has not been written before. A walk over the tables that writes nothing, and notes for each name the first pair of
tables in which it is met, therefore says what the merge writes (`walk`, `after`, `sim_recu`).
-/

namespace RoundGame.Base

open Function Lua

/-- A table. -/
abbrev Ref := Nat

/-- The value of a field. -/
inductive Value
  | bool (b : Bool)
  | num (i : Int)
  | str (s : String)
  | func (id : Nat)
  | table (a : Ref)
  deriving DecidableEq

/-- What the condition of an `if` makes of a field. -/
def truthy : Option Value → Bool
  | none => false
  | some (.bool false) => false
  | some _ => true

/-- The tables. An absent field of the table `a` is looked up in `ancestors a`, one after the other: `inherit` makes a
class the metatable of another, and the `__index` of a class is the class itself. If none has it, `strict a` is the
error that a metamethod raises then, when there is one. -/
structure LuaHeap where
  fields : Ref → Fields Key Value
  ancestors : Ref → List Ref
  strict : Ref → Option String
  /-- There are finitely many tables. -/
  finite : ∃ U : Finset Key, ∀ a, ∀ k ∈ (fields a).keys, k ∈ U

namespace LuaHeap

/-- `rawget(t, k)`. -/
def get (h : LuaHeap) (a : Ref) (k : Key) : Option Value := (h.fields a).get k

def find (h : LuaHeap) (a : Ref) (k : Key) : Option Value := (a :: h.ancestors a).findSome? fun b => h.get b k

/-- `t[k]`. -/
def index (h : LuaHeap) (a : Ref) (k : Key) : Except String (Option Value) :=
  match h.find a k, h.strict a with
  | some v, _ => .ok (some v)
  | none, some e => .error e
  | none, none => .ok none

/-- `t[k] = v`. -/
def set (h : LuaHeap) (a : Ref) (k : Key) (v : Option Value) : LuaHeap :=
  { h with
    fields := update h.fields a ((h.fields a).put k v)
    finite := by
      obtain ⟨U, hU⟩ := h.finite
      refine ⟨insert k U, fun b j hj => ?_⟩
      by_cases hjk : j = k
      · exact hjk ▸ Finset.mem_insert_self k U
      · refine Finset.mem_insert_of_mem (hU b j ?_)
        by_cases hb : b = a
        · subst hb
          rw [update_self] at hj
          rwa [Fields.mem_keys, Fields.get_put_of_ne hjk, ← Fields.mem_keys] at hj
        · rwa [update_of_ne hb] at hj }

end LuaHeap

/-- The module that is reloaded: its own table, and the tables. The table of a module is no field of any table; `import`
gives it to local variables. -/
structure LuaState where
  env : Fields Key Value
  heap : LuaHeap

/-- A reload after the new version has run. -/
structure Merge extends LuaState where
  visited : List Key

namespace Merge

def visit (k : Key) : LuaM Merge PUnit := modify fun s => { s with visited := k :: s.visited }

def assign (a : Ref) (k : Key) (v : Option Value) : LuaM Merge PUnit :=
  modify fun s => { s with heap := s.heap.set a k v }

/-- The body of the first loop of `recu`, where `recu` is the recursive call. -/
def updateField (recu : Ref → Ref → LuaM Merge PUnit) (old new : Ref) (k : Key) : LuaM Merge PUnit := do
  let s ← get
  match s.heap.get new k with
  | none => pure ⟨⟩
  | some v =>
    if k ∈ s.visited then pure ⟨⟩
    else
      visit k
      match ← LuaM.lift (s.heap.index old k), v with
      | some (.table a), .table b => recu a b
      | _, v => assign old k (some v)

/-- The body of the second loop. -/
def removeField (old new : Ref) (k : Key) : LuaM Merge PUnit := do
  let s ← get
  if k ∉ s.visited ∧ truthy (s.heap.get new k) = false then
    visit k
    assign old k none

/-- `recu`, on a stack on which `depth` calls have room. -/
def recu : Nat → Ref → Ref → LuaM Merge PUnit
  | 0, _, _ => throw "stack overflow"
  | depth + 1, old, new => do
    (((← get).heap.fields new).keys).forM (updateField (recu depth) old new)
    (((← get).heap.fields old).keys).forM (removeField old new)

/-- The body of the loop over the module. -/
def mergeField (depth : Nat) (bak_m : Fields Key Value) (k : Key) : LuaM Merge PUnit := do
  match (← get).env.get k, bak_m.get k with
  | some (.table b), some (.table a) =>
    recu depth a b
    modify fun s => { s with env := s.env.put k (some (.table a)) }
  | _, _ => pure ⟨⟩

def merge (depth : Nat) (bak_m : Fields Key Value) : LuaM Merge PUnit := do
  ((← get).env.keys).forM (mergeField depth bak_m)

end Merge

/-- The new version of a file: a chunk, and the names that it assigns at its top level. -/
structure Chunk where
  run : LuaM LuaState PUnit
  names : List Key
  /-- It leaves the other names as they are. -/
  frame : ∀ s k, k ∉ names → (safeCall run s).env.get k = s.env.get k

/-- What `loadfile_ex` finds. -/
inductive File
  | missing
  /-- The file does not compile. -/
  | malformed (e : String)
  | chunk (f : Chunk)

/-- `table_copy`. -/
def tableCopy (tbl : Fields Key Value) : Fields Key Value := tbl

/-- What `reload` prints. -/
inductive Report
  | fail (msg : String)
  | success

def loadfileEx : File → Except String Chunk
  | .missing => .error "attempt to index a nil value (local 'fp')"
  | .malformed e => .error e
  | .chunk f => .ok f

/-- `reload` of a module that has been loaded. -/
def reload (depth : Nat) (file : File) : LuaM LuaState Report := do
  let bak_m := tableCopy (← get).env
  let f ← LuaM.lift (loadfileEx file)
  f.run
  let s ← get
  let (ret, t) := (Merge.merge depth bak_m).exec ⟨s, []⟩
  set t.toLuaState
  match ret with
  | .error msg => return .fail msg
  | .ok _ => return .success

/-! ## The walk -/

/-- For each name that has been met, the pair of tables in which it was met first. -/
abbrev Met := List (Key × Ref × Ref)

namespace Met

def names (m : Met) : List Key := m.map Prod.fst

end Met

namespace LuaHeap

section Walk

variable (h : LuaHeap)

def walkNew (walk : Ref → Ref → Met → Met) (old new : Ref) (m : Met) (k : Key) : Met :=
  match h.get new k with
  | none => m
  | some v =>
    if k ∈ m.names then m
    else
      match h.find old k, v with
      | some (.table a), .table b => walk a b ((k, old, new) :: m)
      | _, _ => (k, old, new) :: m

def walkOld (old new : Ref) (m : Met) (k : Key) : Met :=
  if k ∉ m.names ∧ truthy (h.get new k) = false then (k, old, new) :: m else m

/-- The names in the order in which `recu` comes to them. -/
def walk : Nat → Ref → Ref → Met → Met
  | 0, _, _, m => m
  | depth + 1, old, new, m =>
    (h.fields old).keys.foldl (h.walkOld old new) ((h.fields new).keys.foldl (h.walkNew (walk depth) old new) m)

/-- What becomes of the field `k` of `old`, where the pair `old`, `new` is the first with that name: `none` for a table
that stays and is merged. -/
def written (k : Key) (old new : Ref) : Option (Option Value) :=
  match h.find old k, h.get new k with
  | some (.table _), some (.table _) => none
  | _, v => some v

/-- The fields after a walk. -/
def after (m : Met) (a : Ref) (k : Key) : Option Value :=
  match m.lookup k with
  | none => h.get a k
  | some (old, new) => if a = old then (h.written k old new).getD (h.get a k) else h.get a k

end Walk

end LuaHeap

end RoundGame.Base
