import RoundGame.World.Connection
import RoundGame.World.Player

/-!
# The world service: players that log in

`CWorldMgr` keeps the players that are online and those that are loading. `LoginPlayer` creates a loading player and
asks gamedb for its record; `LoadPlayerCb` loads the four blocks from the response and brings the player online.

Each `Load` runs under a `safe_call` of its own, so a block whose `Load` raises stops neither the others nor the login:
a loading player goes online iff the response carries a record (`load_player_cb`, `LoadResult`). A response without a
record changes nothing.
-/

namespace RoundGame.World

open Function Lua

abbrev ObjId := Nat

/-- The tables of `CWorldMgr`, whose entries are player objects. `objs` holds the objects, `nextObj` is the next one
that is created, `saveIds` the counter of the save manager, and `finished` lists the calls of `LoadFinish` with what
`ApplySave` made of them. -/
structure WorldState where
  connMgr : CConnectionMgr
  itemMgr : CItemMgr
  mOnlinePlayers : Pid → Option ObjId
  mLoginPlayers : Pid → Option ObjId
  objs : ObjId → CPlayer
  nextObj : ObjId
  saveIds : Nat
  finished : List (ObjId × Bool)

namespace WorldState

def new : WorldState where
  connMgr := CConnectionMgr.new
  itemMgr := CItemMgr.new
  mOnlinePlayers _ := none
  mLoginPlayers _ := none
  objs _ := CPlayer.new 0 ⟨"", 0, 0, none⟩
  nextObj := 0
  saveIds := 0
  finished := []

variable (w : WorldState)

/-- `CreatePlayer` returns an object that did not exist before. -/
def createPlayer (iPid : Pid) (mRole : MRole) : WorldState × ObjId :=
  ({ w with objs := update w.objs w.nextObj (CPlayer.new iPid mRole), nextObj := w.nextObj + 1 }, w.nextObj)

/-- The world afterwards, and whether the record of the player is requested. -/
def loginPlayer (iPid : Pid) (mRole : MRole) : WorldState × Bool :=
  let w' := { w with connMgr := (w.connMgr.addConnection iPid (CConnection.new mRole)).1 }
  match w.mOnlinePlayers iPid with
  | some _ => (w', false)
  | none =>
    let r := w'.createPlayer iPid mRole
    ({ r.1 with mLoginPlayers := update r.1.mLoginPlayers iPid (some r.2) }, true)

/-- `savemgr.AddSave` dispatches two ids and returns the first. -/
def loadFinish (oPlayer : ObjId) : WorldState :=
  let r := (w.objs oPlayer).loadFinish (w.saveIds + 1)
  { w with objs := update w.objs oPlayer r.1, saveIds := if r.2 then w.saveIds + 2 else w.saveIds,
           finished := w.finished ++ [(oPlayer, r.2)] }

def loadPlayerFinish (iPid : Pid) : WorldState :=
  let oPlayer := w.mLoginPlayers iPid
  let w' := { w with mOnlinePlayers := update w.mOnlinePlayers iPid oPlayer,
                     mLoginPlayers := update w.mLoginPlayers iPid none }
  match oPlayer with
  | some oPlayer => w'.loadFinish oPlayer
  | none => w'

end WorldState

/-- `mData["data"][sKey]`. -/
def blockData (mData : Val) (sKey : String) : Except String Val := do
  (← mData.index "data").index sKey

/-- The loop over `lCtrl2LoadCb`, and `SetName`. -/
def loadBlocks (env : LoadEnv) (mData : Val) : LuaM (CPlayer × CItemMgr) PUnit := do
  let base ← LuaM.lift (blockData mData "basectrl")
  modify fun s => ({ s.1 with oBaseCtrl := safeCall (CBaseCtrl.load base) s.1.oBaseCtrl }, s.2)
  let active ← LuaM.lift (blockData mData "activectrl")
  modify fun s => ({ s.1 with oActiveCtrl := safeCall (CActiveCtrl.load active) s.1.oActiveCtrl }, s.2)
  let item ← LuaM.lift (blockData mData "itemctrl")
  modify fun s =>
    let r := safeCall (CItemCtrl.load env.items item) (s.1.oItemCtrl, s.2)
    ({ s.1 with oItemCtrl := r.1 }, r.2)
  let time ← LuaM.lift (blockData mData "timectrl")
  modify fun s => ({ s.1 with oTimeCtrl := safeCall (CTimeCtrl.load env.timeOrder time) s.1.oTimeCtrl }, s.2)
  let sName ← LuaM.lift (blockData mData "name")
  modify fun s => (s.1.setName sName, s.2)

namespace WorldState

variable (w : WorldState)

/-- Where the source raises, the world is left as it is then. -/
def loadPlayerCb (env : LoadEnv) (iPid : Pid) (mData : Val) : WorldState :=
  match w.mLoginPlayers iPid with
  | none => w
  | some oPlayer =>
    if !mData.truthy then w
    else
      let r := (loadBlocks env mData).exec (w.objs oPlayer, w.itemMgr)
      let w' := { w with objs := update w.objs oPlayer r.2.1, itemMgr := r.2.2 }
      match r.1 with
      | .ok _ => w'.loadPlayerFinish iPid
      | .error _ => w'

end WorldState

/-! ## What a response loads -/

/-- The response carries a record: `mData["data"]` can be indexed. -/
def HasRecord (mData : Val) : Prop := mData.Indexable ∧ (mData.field "data").Indexable

instance : DecidablePred HasRecord := fun mData =>
  inferInstanceAs (Decidable (mData.Indexable ∧ (mData.field "data").Indexable))

theorem HasRecord.truthy {mData : Val} (h : HasRecord mData) : mData.truthy = true := by
  cases mData with
  | tbl entries => rfl
  | str s => rfl
  | nil => exact h.1.elim
  | bool b => exact h.1.elim
  | num i => exact h.1.elim

theorem blockData_of_hasRecord {mData : Val} (h : HasRecord mData) (sKey : String) :
    blockData mData sKey = .ok ((mData.field "data").field sKey) := by
  unfold blockData
  rw [Val.index_of_indexable h.1]
  exact Val.index_of_indexable h.2 sKey

theorem blockData_of_not_hasRecord {mData : Val} (h : ¬ HasRecord mData) (sKey : String) :
    ∃ e, blockData mData sKey = .error e := by
  unfold blockData
  by_cases hi : mData.Indexable
  · rw [Val.index_of_indexable hi]
    have hd : ¬ (mData.field "data").Indexable := fun hd => h ⟨hi, hd⟩
    exact ⟨_, Val.index_of_not_indexable hd sKey⟩
  · rw [Val.index_of_not_indexable hi]
    exact ⟨_, rfl⟩

/-- The player and the item manager after the blocks of a record. -/
def loaded (env : LoadEnv) (record : Val) (p : CPlayer) (g : CItemMgr) : CPlayer × CItemMgr :=
  let item := safeCall (CItemCtrl.load env.items (record.field "itemctrl")) (p.oItemCtrl, g)
  ({ p with
     sName := record.field "name"
     oBaseCtrl := safeCall (CBaseCtrl.load (record.field "basectrl")) p.oBaseCtrl
     oActiveCtrl := safeCall (CActiveCtrl.load (record.field "activectrl")) p.oActiveCtrl
     oItemCtrl := item.1
     oTimeCtrl := safeCall (CTimeCtrl.load env.timeOrder (record.field "timectrl")) p.oTimeCtrl }, item.2)

/-- With a record, the loop over the blocks never raises, whatever the blocks do. -/
theorem loadBlocks_of_hasRecord (env : LoadEnv) {mData : Val} (h : HasRecord mData) (p : CPlayer) (g : CItemMgr) :
    (loadBlocks env mData).exec (p, g) = (.ok ⟨⟩, loaded env (mData.field "data") p g) := by
  unfold loadBlocks
  simp only [blockData_of_hasRecord h, LuaM.exec_bind, LuaM.exec_lift, LuaM.exec_modify]
  rfl

/-- Without a record, it raises before any block is touched. -/
theorem loadBlocks_of_not_hasRecord (env : LoadEnv) {mData : Val} (h : ¬ HasRecord mData) (s : CPlayer × CItemMgr) :
    ∃ e, (loadBlocks env mData).exec s = (.error e, s) := by
  obtain ⟨e, he⟩ := blockData_of_not_hasRecord h "basectrl"
  refine ⟨e, ?_⟩
  unfold loadBlocks
  rw [LuaM.exec_bind, he, LuaM.exec_lift]

theorem dirty_loaded (env : LoadEnv) (record : Val) (p : CPlayer) (g : CItemMgr) :
    (loaded env record p g).1.dirty = p.dirty := by
  have hb := CBaseCtrl.keeps_load (record.field "basectrl") p.oBaseCtrl
  have ha := CActiveCtrl.keeps_load (record.field "activectrl") p.oActiveCtrl
  have hi := CItemCtrl.keeps_load env.items (record.field "itemctrl") (p.oItemCtrl, g)
  have ht := CTimeCtrl.keeps_load env.timeOrder (record.field "timectrl") p.oTimeCtrl
  simp only at hi
  simp only [loaded, CPlayer.dirty, hb, ha, hi, ht]

/-! ## The response -/

namespace WorldState

variable {w : WorldState} {env : LoadEnv} {iPid : Pid} {mData : Val}

/-- A response for no loading player, or without a record, changes nothing. -/
theorem loadPlayerCb_unchanged (h : w.mLoginPlayers iPid = none ∨ ¬ HasRecord mData) :
    w.loadPlayerCb env iPid mData = w := by
  unfold loadPlayerCb
  cases hl : w.mLoginPlayers iPid with
  | none => rfl
  | some o =>
    have hno : ¬ HasRecord mData := h.resolve_left (by rw [hl]; simp)
    obtain ⟨e, he⟩ := loadBlocks_of_not_hasRecord env hno (w.objs o, w.itemMgr)
    simp only [he, update_eq_self]
    split <;> rfl

/-- A loading player and a record: the blocks are loaded and the player goes online. -/
theorem loadPlayerCb_loaded {o : ObjId} (hl : w.mLoginPlayers iPid = some o) (h : HasRecord mData) :
    w.loadPlayerCb env iPid mData =
      ({ w with
         objs := update w.objs o (loaded env (mData.field "data") (w.objs o) w.itemMgr).1
         itemMgr := (loaded env (mData.field "data") (w.objs o) w.itemMgr).2
         mOnlinePlayers := update w.mOnlinePlayers iPid (some o)
         mLoginPlayers := update w.mLoginPlayers iPid none } : WorldState).loadFinish o := by
  unfold loadPlayerCb loadPlayerFinish
  simp only [hl, h.truthy, loadBlocks_of_hasRecord env h]
  rfl

/-- The world after a response that loads an object without a save id. -/
theorem loadPlayerCb_eq {o : ObjId} (hl : w.mLoginPlayers iPid = some o) (h : HasRecord mData)
    (hsave : (w.objs o).iSaveId = none) :
    w.loadPlayerCb env iPid mData =
      { w with
        objs := update w.objs o { (loaded env (mData.field "data") (w.objs o) w.itemMgr).1 with
          bLoading := false, iSaveId := some (w.saveIds + 1) }
        itemMgr := (loaded env (mData.field "data") (w.objs o) w.itemMgr).2
        mOnlinePlayers := update w.mOnlinePlayers iPid (some o)
        mLoginPlayers := update w.mLoginPlayers iPid none
        saveIds := w.saveIds + 2
        finished := w.finished ++ [(o, true)] } := by
  have hfin :=
    CPlayer.loadFinish_eq (p := (loaded env (mData.field "data") (w.objs o) w.itemMgr).1) hsave (w.saveIds + 1)
  rw [loadPlayerCb_loaded hl h]
  simp only [loadFinish, update_self, hfin, update_idem, if_true]

/-- Each block is what its own protected `Load` of the record left. -/
structure BlocksLoaded (env : LoadEnv) (record : Val) (g : CItemMgr) (p p' : CPlayer) : Prop where
  base : p'.oBaseCtrl = safeCall (CBaseCtrl.load (record.field "basectrl")) p.oBaseCtrl
  active : p'.oActiveCtrl = safeCall (CActiveCtrl.load (record.field "activectrl")) p.oActiveCtrl
  item : p'.oItemCtrl = (safeCall (CItemCtrl.load env.items (record.field "itemctrl")) (p.oItemCtrl, g)).1
  time : p'.oTimeCtrl = safeCall (CTimeCtrl.load env.timeOrder (record.field "timectrl")) p.oTimeCtrl

/-- What `LoadPlayerCb` does: with a loading player and a record, the player goes online with its blocks loaded;
otherwise no player goes online. No block becomes one to save. -/
structure LoadResult (env : LoadEnv) (w : WorldState) (iPid : Pid) (mData : Val) (w' : WorldState) : Prop where
  online : ∀ o, w.mLoginPlayers iPid = some o → HasRecord mData →
    w'.mOnlinePlayers = update w.mOnlinePlayers iPid (some o) ∧
      BlocksLoaded env (mData.field "data") w.itemMgr (w.objs o) (w'.objs o)
  unchanged : w.mLoginPlayers iPid = none ∨ ¬ HasRecord mData → w'.mOnlinePlayers = w.mOnlinePlayers
  dirty : ∀ o, (w'.objs o).dirty = (w.objs o).dirty

/-- `LoadFinish` changes two fields of its object at most. -/
theorem objs_loadFinish (w : WorldState) (o : ObjId) :
    ∃ i, (w.loadFinish o).objs = update w.objs o { w.objs o with bLoading := false, iSaveId := i } := by
  obtain ⟨i, hi⟩ := (w.objs o).loadFinish_fst (w.saveIds + 1)
  exact ⟨i, by rw [← hi]; rfl⟩

/-- The player objects after a response that loads one. -/
theorem objs_loadPlayerCb (env : LoadEnv) {o : ObjId} (hl : w.mLoginPlayers iPid = some o) (h : HasRecord mData) :
    ∃ i, (w.loadPlayerCb env iPid mData).objs = update w.objs o
      { (loaded env (mData.field "data") (w.objs o) w.itemMgr).1 with bLoading := false, iSaveId := i } := by
  rw [loadPlayerCb_loaded hl h]
  obtain ⟨i, hi⟩ := objs_loadFinish ({ w with
    objs := update w.objs o (loaded env (mData.field "data") (w.objs o) w.itemMgr).1
    itemMgr := (loaded env (mData.field "data") (w.objs o) w.itemMgr).2
    mOnlinePlayers := update w.mOnlinePlayers iPid (some o)
    mLoginPlayers := update w.mLoginPlayers iPid none } : WorldState) o
  refine ⟨i, ?_⟩
  simp only [hi, update_idem, update_self]

theorem online_loadPlayerCb {o : ObjId} (hl : w.mLoginPlayers iPid = some o) (h : HasRecord mData) :
    (w.loadPlayerCb env iPid mData).mOnlinePlayers = update w.mOnlinePlayers iPid (some o) := by
  rw [loadPlayerCb_loaded hl h]
  rfl

/-- No block becomes one to save. -/
theorem dirty_loadPlayerCb (p : ObjId) : ((w.loadPlayerCb env iPid mData).objs p).dirty = (w.objs p).dirty := by
  by_cases h : HasRecord mData
  · cases hl : w.mLoginPlayers iPid with
    | none => rw [loadPlayerCb_unchanged (Or.inl hl)]
    | some o =>
      obtain ⟨i, hi⟩ := objs_loadPlayerCb env hl h
      rw [hi]
      by_cases hp : p = o
      · subst hp
        rw [update_self]
        exact dirty_loaded env _ _ _
      · rw [update_of_ne hp]
  · rw [loadPlayerCb_unchanged (Or.inr h)]

/-- **What `LoadPlayerCb` does**, for every state, player and response. -/
theorem load_player_cb (env : LoadEnv) (w : WorldState) (iPid : Pid) (mData : Val) :
    LoadResult env w iPid mData (w.loadPlayerCb env iPid mData) := by
  refine ⟨fun o hl h => ⟨online_loadPlayerCb hl h, ?_⟩, ?_, dirty_loadPlayerCb⟩
  · obtain ⟨i, hi⟩ := objs_loadPlayerCb env hl h
    rw [hi, update_self]
    exact ⟨rfl, rfl, rfl, rfl⟩
  · intro h
    rw [loadPlayerCb_unchanged h]

/-- The `Load` of each block ends without an error on the record of the response. -/
def LoadsComplete (env : LoadEnv) (w : WorldState) (o : ObjId) (record : Val) : Prop :=
  Completes (CBaseCtrl.load (record.field "basectrl")) (w.objs o).oBaseCtrl ∧
    Completes (CActiveCtrl.load (record.field "activectrl")) (w.objs o).oActiveCtrl ∧
    Completes (CItemCtrl.load env.items (record.field "itemctrl")) ((w.objs o).oItemCtrl, w.itemMgr) ∧
    Completes (CTimeCtrl.load env.timeOrder (record.field "timectrl")) (w.objs o).oTimeCtrl

/-- The environment of the repository. -/
def repoEnv : LoadEnv := ⟨repoItems, [.todayctrl, .weekctrl, .monthctrl, .tempctrl]⟩

/-- A response whose record has a bag with one item, of which no configuration is left. -/
def lostItem : Val :=
  .tbl [(.str "data", .tbl [(.str "itemctrl",
    .tbl [(.str "itemdata", .tbl [(.str "1", .tbl [(.str "sid", .num 99)])])])])]

/-- Player 1001 goes online although its item block was not loaded. -/
theorem online_without_items : ¬ ∀ o, (new.loginPlayer 1001 ⟨"ann", 1, 5, none⟩).1.mLoginPlayers 1001 = some o →
    ((new.loginPlayer 1001 ⟨"ann", 1, 5, none⟩).1.loadPlayerCb repoEnv 1001 lostItem).mOnlinePlayers 1001 = some o →
    LoadsComplete repoEnv (new.loginPlayer 1001 ⟨"ann", 1, 5, none⟩).1 o (lostItem.field "data") := by
  intro h
  have hitems := (h 0 rfl rfl).2.2.1
  have herr : ((CItemCtrl.load repoItems ((lostItem.field "data").field "itemctrl")).exec
      (((new.loginPlayer 1001 ⟨"ann", 1, 5, none⟩).1.objs 0).oItemCtrl, CItemMgr.new)).1 =
      .error "unexist item:99" := rfl
  cases herr.symm.trans hitems

end WorldState

end RoundGame.World
