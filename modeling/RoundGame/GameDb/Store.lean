import RoundGame.Lib.DocStore
import RoundGame.Base.Defs

/-!
# The stored collections

gamedb keeps three collections: accounts with their role lists, one row per player, and the id supply. Its requests
are single writes and reads of them, and `main.lua` makes `account.account`, `player.pid` and `player.name` unique.

A read gets back what the last write of the same document stored (`loadAllId_saveAllId`), and the writes of one
collection leave the others alone.
-/

namespace RoundGame.GameDb

/-- A stored value. `idInfo` is the table `{player_id = ..}`, `block` any other data. -/
inductive Val (β : Type)
  | str (s : String)
  | num (i : Int)
  | roleinfo (l : List Role)
  | idInfo (iPlayerId : Int)
  | block (b : β)
  deriving DecidableEq

abbrev Doc (β : Type) := DocStore.Doc String (Val β)

variable {β : Type}

/-- The selectors of the requests: `{}`, `{field = v}` and `{field = {["$exists"] = true}}`. -/
inductive Cond (β : Type)
  | any
  | eq (field : String) (v : Val β)
  | isSet (field : String)
  deriving DecidableEq

def Cond.sel [DecidableEq β] : Cond β → Doc β → Bool
  | .any, _ => true
  | .eq field v, d => d field = some v
  | .isSet field, d => (d field).isSome

/-- The fields an upsert takes over from its selector. -/
def Cond.base : Cond β → Doc β
  | .eq field v => Function.update (fun _ => none) field (some v)
  | _ => fun _ => none

inductive Table
  | account | player | idsupply
  deriving DecidableEq

/-- The unique indexes of `main.lua`, `_id` apart. -/
def Table.uniq : Table → List String
  | .account => ["account"]
  | .player => ["pid", "name"]
  | .idsupply => []

/-- The commands `CGameDb:Insert` and `CGameDb:Update` send; `update` sets one field. -/
inductive Write (β : Type)
  | insert (sTable : Table) (mInsert : List (String × Val β))
  | update (sTable : Table) (mCond : Cond β) (field : String) (v : Val β) (bUpsert : Bool)
  deriving DecidableEq

/-- A document given by its fields. -/
def Doc.ofFields (l : List (String × Val β)) : Doc β := fun f => l.lookup f

abbrev Db (β : Type) := Table → List (Doc β)

namespace Db

def empty : Db β := fun _ => []

variable [DecidableEq β] (db : Db β)

/-- A write on one collection: the collection afterwards, and whether mongo reports success. -/
def writeColl (c : List (Doc β)) : Write β → List (Doc β) × Bool
  | .insert sTable mInsert => DocStore.insert sTable.uniq c (Doc.ofFields mInsert)
  | .update sTable mCond field v bUpsert =>
    DocStore.update sTable.uniq mCond.sel (fun d => Function.update d field (some v))
      (if bUpsert then some mCond.base else none) c

end Db

def Write.table : Write β → Table
  | .insert sTable _ => sTable
  | .update sTable _ _ _ _ => sTable

namespace Db

variable [DecidableEq β] (db : Db β)

/-- The collections after a write, and whether mongo reports success. -/
def write (w : Write β) : Db β × Bool :=
  let r := writeColl (db w.table) w
  (Function.update db w.table r.1, r.2)

def findOne (sTable : Table) (mCond : Cond β) : Option (Doc β) := DocStore.find mCond.sel (db sTable)

end Db

/-! ## The requests -/

def insertPlayerNameAndPid (name : String) (pid : Pid) : Write β :=
  .insert .player [("name", .str name), ("pid", .num pid)]

def saveOnlineCtrl (pid : Pid) (name : String) (data : Val β) : Write β :=
  .update .player (.eq "pid" (.num pid)) name data true

/-- A request without `account` selects the first account there is. -/
def saveRoleList (account : Option String) (roleinfo : List Role) : Write β :=
  .update .account (account.elim .any fun a => .eq "account" (.str a)) "roleinfo" (.roleinfo roleinfo) true

def saveAllId (player_id : Int) : Write β := .update .idsupply (.isSet "id_info") "id_info" (.idInfo player_id) true

namespace Db

variable [DecidableEq β] (db : Db β)

/-- `mResult.roleinfo` of a `GetRoleList` response. -/
def getRoleList (account : String) : Option (Option (List Role)) :=
  (db.findOne .account (.eq "account" (.str account))).map fun d =>
    match d "roleinfo" with
    | some (.roleinfo l) => some l
    | _ => none

/-- `mResult.id_info.player_id` of a `LoadAllId` response. -/
def loadAllId : Option Int :=
  match db.findOne .idsupply (.isSet "id_info") with
  | none => none
  | some d =>
    match d "id_info" with
    | some (.idInfo player_id) => some player_id
    | _ => none

/-- The player table has a row of a player. -/
def HasRow (pid : Pid) : Prop := ∃ d ∈ db .player, d "pid" = some (.num pid)

/-! ## What a write changes -/

variable {db}

theorem write_other {w : Write β} {t : Table} (h : t ≠ w.table) : (db.write w).1 t = db t :=
  Function.update_of_ne h _ _

/-- A `SaveAllId` is never refused, and the next `LoadAllId` returns what it stored. -/
theorem loadAllId_saveAllId (n : Int) : ((db.write (saveAllId n)).1).loadAllId = some n := by
  obtain ⟨d, hd⟩ := DocStore.find_update [] (Cond.isSet "id_info" : Cond β).sel
    (fun d => Function.update d "id_info" (some (.idInfo n))) (Cond.isSet "id_info" : Cond β).base (db .idsupply)
    (fun d => by simp [Cond.sel]) DocStore.update_ok_of_nil
  have hfind : (db.write (saveAllId n)).1.findOne .idsupply (.isSet "id_info") =
      some (Function.update d "id_info" (some (.idInfo n))) := hd
  simp [loadAllId, hfind]

theorem loadAllId_insertPlayerNameAndPid (db : Db β) (name : String) (pid : Pid) :
    (db.write (insertPlayerNameAndPid name pid)).1.loadAllId = db.loadAllId := by
  unfold loadAllId findOne
  rw [write_other (w := insertPlayerNameAndPid name pid) (t := .idsupply) fun h => by cases h]

theorem player_saveAllId (n : Int) : (db.write (saveAllId n)).1 .player = db .player :=
  write_other (w := saveAllId n) fun h => by cases h

/-- The rows after an `InsertPlayerNameAndPid`: the old ones, and the new one when it was accepted. -/
theorem mem_insertPlayerNameAndPid {name : String} {pid : Pid} {d : Doc β} :
    d ∈ (db.write (insertPlayerNameAndPid name pid)).1 .player ↔
      d ∈ db .player ∨
        (db.write (insertPlayerNameAndPid name pid)).2 = true ∧
          d = Doc.ofFields [("name", .str name), ("pid", .num pid)] :=
  DocStore.mem_insert

end Db

end RoundGame.GameDb
