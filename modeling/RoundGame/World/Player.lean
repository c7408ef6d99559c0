import RoundGame.World.Item

/-!
# The stored blocks of a player

A player has four blocks that are loaded from the database: base, active, item and time. `Load` assigns the fields of
a block from untyped data and may raise; no block is marked as changed by it (`keeps_load` of each block).
-/

namespace RoundGame.World

open Lua

/-! ## Base and active -/

structure CBaseCtrl where
  iPid : Pid
  iSchool : Val
  iSex : Val
  iIcon : Val
  mModel : Val
  bDirty : Bool

namespace CBaseCtrl

/-- The `role` of a `LoginPlayer` message has neither school, sex nor icon, and `New` assigns `m_mModle`. -/
def new (iPid : Pid) (_mRole : MRole) : CBaseCtrl := ⟨iPid, .nil, .nil, .nil, .nil, false⟩

def load (m : Val) : LuaM CBaseCtrl PUnit := do
  if !m.truthy then return
  let school ← LuaM.lift (m.index "school")
  modify fun c => { c with iSchool := school }
  let sex ← LuaM.lift (m.index "sex")
  modify fun c => { c with iSex := sex }
  let icon ← LuaM.lift (m.index "icon")
  modify fun c => { c with iIcon := icon }
  let model ← LuaM.lift (m.index "model")
  modify fun c => { c with mModel := model }

theorem keeps_load (m : Val) : Keeps CBaseCtrl.bDirty (load m) := by
  unfold load
  split
  · exact Keeps.pure _
  · refine Keeps.bind (Keeps.lift _) fun _ => Keeps.bind (Keeps.modify fun _ => rfl) fun _ => ?_
    refine Keeps.bind (Keeps.lift _) fun _ => Keeps.bind (Keeps.modify fun _ => rfl) fun _ => ?_
    refine Keeps.bind (Keeps.lift _) fun _ => Keeps.bind (Keeps.modify fun _ => rfl) fun _ => ?_
    exact Keeps.bind (Keeps.lift _) fun _ => Keeps.modify fun _ => rfl

end CBaseCtrl

structure CActiveCtrl where
  iPid : Pid
  iExp : Val
  iGrade : Val
  bDirty : Bool

namespace CActiveCtrl

def new (iPid : Pid) : CActiveCtrl := ⟨iPid, .num 0, .num 0, false⟩

def load (m : Val) : LuaM CActiveCtrl PUnit := do
  if !m.truthy then return
  let exp ← LuaM.lift (m.index "exp")
  modify fun c => { c with iExp := exp }
  let grade ← LuaM.lift (m.index "grade")
  modify fun c => { c with iGrade := grade }

theorem keeps_load (m : Val) : Keeps CActiveCtrl.bDirty (load m) := by
  unfold load
  split
  · exact Keeps.pure _
  · refine Keeps.bind (Keeps.lift _) fun _ => Keeps.bind (Keeps.modify fun _ => rfl) fun _ => ?_
    exact Keeps.bind (Keeps.lift _) fun _ => Keeps.modify fun _ => rfl

end CActiveCtrl

/-! ## Time -/

/-- `CToday`, `CWeek` and `CMonth`. -/
structure CToday where
  mData : Val
  bDirty : Bool

def CToday.load (m : Val) : LuaM CToday PUnit := do
  if !m.truthy then return
  let data ← LuaM.lift (m.index "data")
  modify fun c => { c with mData := data }

structure CTemp where
  mData : Val
  mTime : Val
  bDirty : Bool

def CTemp.load (m : Val) : LuaM CTemp PUnit := do
  if !m.truthy then return
  let data ← LuaM.lift (m.index "data")
  modify fun c => { c with mData := data }
  let time ← LuaM.lift (m.index "time")
  modify fun c => { c with mTime := time }

/-- The keys of `m_mCtrl`. -/
inductive TimeKey
  | todayctrl | weekctrl | monthctrl | tempctrl
  deriving DecidableEq

def TimeKey.name : TimeKey → String
  | .todayctrl => "todayctrl"
  | .weekctrl => "weekctrl"
  | .monthctrl => "monthctrl"
  | .tempctrl => "tempctrl"

structure CTimeCtrl where
  iPid : Pid
  today : CToday
  week : CToday
  month : CToday
  temp : CTemp

namespace CTimeCtrl

def new (iPid : Pid) : CTimeCtrl :=
  ⟨iPid, ⟨.tbl [], false⟩, ⟨.tbl [], false⟩, ⟨.tbl [], false⟩, ⟨.tbl [], .tbl [], false⟩⟩

/-- Whether one of the time blocks is marked as changed. -/
def bDirty (c : CTimeCtrl) : Bool := c.today.bDirty || c.week.bDirty || c.month.bDirty || c.temp.bDirty

def loadKey (m : Val) : TimeKey → LuaM CTimeCtrl PUnit
  | .todayctrl => (CToday.load m).within CTimeCtrl.today fun t c => { c with today := t }
  | .weekctrl => (CToday.load m).within CTimeCtrl.week fun t c => { c with week := t }
  | .monthctrl => (CToday.load m).within CTimeCtrl.month fun t c => { c with month := t }
  | .tempctrl => (CTemp.load m).within CTimeCtrl.temp fun t c => { c with temp := t }

/-- One turn of the loop over `m_mCtrl`. -/
def loadSub (m : Val) (k : TimeKey) : LuaM CTimeCtrl PUnit := do
  let v ← LuaM.lift (m.index k.name)
  if v.truthy then loadKey v k

/-- `order` is the order in which `pairs` visits `m_mCtrl`. -/
def load (order : List TimeKey) (m : Val) : LuaM CTimeCtrl PUnit := do
  if !m.truthy then return
  order.forM (loadSub m)

theorem today_keeps_load (m : Val) : Keeps CToday.bDirty (CToday.load m) := by
  unfold CToday.load
  split
  · exact Keeps.pure _
  · exact Keeps.bind (Keeps.lift _) fun _ => Keeps.modify fun _ => rfl

theorem temp_keeps_load (m : Val) : Keeps CTemp.bDirty (CTemp.load m) := by
  unfold CTemp.load
  split
  · exact Keeps.pure _
  · refine Keeps.bind (Keeps.lift _) fun _ => Keeps.bind (Keeps.modify fun _ => rfl) fun _ => ?_
    exact Keeps.bind (Keeps.lift _) fun _ => Keeps.modify fun _ => rfl

theorem keeps_loadKey (m : Val) (k : TimeKey) : Keeps bDirty (loadKey m k) := by
  cases k with
  | todayctrl => exact Keeps.within (today_keeps_load m) fun t c h => by simp [bDirty, h]
  | weekctrl => exact Keeps.within (today_keeps_load m) fun t c h => by simp [bDirty, h]
  | monthctrl => exact Keeps.within (today_keeps_load m) fun t c h => by simp [bDirty, h]
  | tempctrl => exact Keeps.within (temp_keeps_load m) fun t c h => by simp [bDirty, h]

theorem keeps_load (order : List TimeKey) (m : Val) : Keeps bDirty (load order m) := by
  unfold load
  split
  · exact Keeps.pure _
  · refine Keeps.forM (fun k => Keeps.bind (Keeps.lift _) fun v => ?_) order
    cases v.truthy with
    | true => exact keeps_loadKey v k
    | false => exact Keeps.pure _

end CTimeCtrl

/-! ## The player -/

/-- What loading depends on outside the player: the items, and the order of `m_mCtrl`. -/
structure LoadEnv where
  items : ItemEnv
  timeOrder : List TimeKey

/-- The parts of a player that the login reads or writes. -/
structure CPlayer where
  iPid : Pid
  sAccount : String
  sName : Val
  bLoading : Bool
  iSaveId : Option Nat
  oBaseCtrl : CBaseCtrl
  oActiveCtrl : CActiveCtrl
  oItemCtrl : CItemCtrl
  oTimeCtrl : CTimeCtrl

namespace CPlayer

def new (iPid : Pid) (mRole : MRole) : CPlayer where
  iPid := iPid
  sAccount := mRole.account
  sName := .str ""
  bLoading := true
  iSaveId := none
  oBaseCtrl := CBaseCtrl.new iPid mRole
  oActiveCtrl := CActiveCtrl.new iPid
  oItemCtrl := CItemCtrl.new iPid
  oTimeCtrl := CTimeCtrl.new iPid

def setName (p : CPlayer) (sName : Val) : CPlayer := { p with sName := sName }

/-- `ApplySave` of `CDataCtrl`; `iSaveId` is what `savemgr.AddSave` returns. -/
def applySave (p : CPlayer) (iSaveId : Nat) : Except String CPlayer :=
  if p.iSaveId.isSome then .error "assertion failed!" else .ok { p with iSaveId := some iSaveId }

/-- `LoadFinish`, and whether `ApplySave` got past its `assert`. -/
def loadFinish (p : CPlayer) (iSaveId : Nat) : CPlayer × Bool :=
  let p := { p with bLoading := false }
  match p.applySave iSaveId with
  | .ok p => (p, true)
  | .error _ => (p, false)

/-- Which blocks are marked as changed. -/
def dirty (p : CPlayer) : Bool × Bool × Bool × Bool :=
  (p.oBaseCtrl.bDirty, p.oActiveCtrl.bDirty, p.oItemCtrl.bDirty, p.oTimeCtrl.bDirty)

theorem loadFinish_eq {p : CPlayer} (h : p.iSaveId = none) (iSaveId : Nat) :
    p.loadFinish iSaveId = ({ p with bLoading := false, iSaveId := some iSaveId }, true) := by
  simp [loadFinish, applySave, h]

/-- `LoadFinish` changes the two fields it assigns at most. -/
theorem loadFinish_fst (p : CPlayer) (iSaveId : Nat) :
    ∃ i, (p.loadFinish iSaveId).1 = { p with bLoading := false, iSaveId := i } := by
  cases h : p.iSaveId with
  | none => exact ⟨some iSaveId, by rw [loadFinish_eq h]⟩
  | some i => exact ⟨some i, by simp [loadFinish, applySave, h]⟩

end CPlayer

end RoundGame.World
