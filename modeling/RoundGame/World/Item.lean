import Mathlib.Logic.Function.Basic
import RoundGame.Lib.Lua
import RoundGame.Base.Defs

/-!
# Items and the item block of a player

`CItemMgr:CreateItem` finds the module of an item by its configuration and calls its `New`; `CItemCtrl:Load` creates
the items of a stored bag one after the other. Each of these steps may raise, and then the bag holds the items
created so far.

No module under `item/` defines `New`, so with the modules of the repository (`repoItems`) each item raises.
-/

namespace RoundGame.World

open Function Lua

/-- What `CreateItem` looks up: the `belong` of an item's configuration, whether a file exists, and what `import`
returns: a module that may have a `New`. -/
structure ItemEnv where
  belong : Int → Option String
  fileExists : String → Bool
  importModule : String → Except String Bool

/-- `daobiao/gamedata/data.lua` and the files under `item/`. -/
def repoItems : ItemEnv where
  belong iSid := if iSid = 1001 then some "virturl" else if iSid = 10001 then some "other" else none
  fileExists sPath := sPath ∈ ["item/itembase", "item/itemmgr", "item/other/i10001", "item/virtual/i1001",
    "item/virtual/virtualbase"]
  importModule sPath :=
    if sPath ∈ ["item/other/i10001", "item/virtual/i1001", "item.virtual.virtualbase"] then .ok false
    else .error "attempt to index a nil value (local 'fp')"

structure CItem where
  iSid : Val
  iItem : Nat
  iAmount : Val
  mData : Val
  bDirty : Bool

/-- `m_mCacheItem` belongs to `GetItem`, which no loading uses. -/
structure CItemMgr where
  iDispatchId : Nat

namespace CItemMgr

def new : CItemMgr := ⟨0⟩

def dispatchItemId : LuaM CItemMgr Nat := do
  modify fun g => { g with iDispatchId := g.iDispatchId + 1 }
  return (← get).iDispatchId

end CItemMgr

namespace CItem

def new (iSid : Val) : LuaM CItemMgr CItem := do
  let iItem ← CItemMgr.dispatchItemId
  return ⟨iSid, iItem, .num 1, .tbl [], false⟩

def load (o : CItem) (m : Val) : Except String CItem :=
  if !m.truthy then .ok o
  else do
    let mData ← m.index "data"
    let iAmount ← m.index "amount"
    return { o with mData := mData, iAmount := iAmount }

end CItem

namespace CItemMgr

/-- The configuration is a table with integer keys. -/
def getConfigBySid (env : ItemEnv) : Val → Option String
  | .num iSid => env.belong iSid
  | _ => none

/-- The message of the `assert` is put together before the check. -/
def createItem (env : ItemEnv) (iSid : Val) : LuaM CItemMgr CItem := do
  let mItem := getConfigBySid env iSid
  let sSid ← LuaM.lift iSid.concat
  match mItem with
  | none => throw ("unexist item:" ++ sSid)
  | some belong =>
    let sPath := "item/" ++ belong ++ "/i" ++ sSid
    let bNew ← LuaM.lift <|
      if env.fileExists sPath then env.importModule sPath
      else env.importModule ("item." ++ belong ++ "." ++ belong ++ "base")
    if !bNew then throw "attempt to call a nil value (method 'New')"
    CItem.new iSid

def loadItem (env : ItemEnv) (mItem : Val) : LuaM CItemMgr CItem := do
  let oItem ← createItem env (← LuaM.lift (mItem.index "sid"))
  LuaM.lift (oItem.load mItem)

end CItemMgr

structure CItemCtrl where
  iPid : Pid
  mItemList : Int → Option CItem
  bDirty : Bool

namespace CItemCtrl

def new (iPid : Pid) : CItemCtrl := ⟨iPid, fun _ => none, false⟩

/-- One entry of the stored bag. -/
def loadEntry (env : ItemEnv) (e : Key × Val) : LuaM (CItemCtrl × CItemMgr) PUnit := do
  let oItem ← (CItemMgr.loadItem env e.2).within Prod.snd fun g s => (s.1, g)
  match tonumber e.1 with
  | none => throw "index is nil"
  | some iPos => modify fun s => ({ s.1 with mItemList := update s.1.mItemList iPos (some oItem) }, s.2)

def load (env : ItemEnv) (m : Val) : LuaM (CItemCtrl × CItemMgr) PUnit := do
  if !m.truthy then return
  let itemdata ← LuaM.lift (m.index "itemdata")
  let entries ← LuaM.lift (if itemdata.truthy then itemdata.pairs else .ok [])
  entries.forM (loadEntry env)

theorem keeps_loadEntry (env : ItemEnv) (e : Key × Val) : Keeps (fun s => s.1.bDirty) (loadEntry env e) := by
  unfold loadEntry
  refine Keeps.bind ?_ fun oItem => ?_
  · intro s
    rfl
  · cases tonumber e.1 with
    | none => exact Keeps.throw _
    | some iPos => exact Keeps.modify fun _ => rfl

/-- Loading does not mark the block as changed. -/
theorem keeps_load (env : ItemEnv) (m : Val) : Keeps (fun s => s.1.bDirty) (load env m) := by
  unfold load
  split
  · exact Keeps.pure _
  · exact Keeps.bind (Keeps.lift _) fun _ => Keeps.bind (Keeps.lift _) fun _ => Keeps.forM (keeps_loadEntry env) _

end CItemCtrl

end RoundGame.World
