import RoundGame.Base.Defs

/-!
# The id supply

`CIdMgr` counts the player ids. It starts loading, and `Load` and `LoadFinish` run when gamedb answers `LoadAllId`.
`GenPlayerId` raises the counter, saves it and returns it.
-/

namespace RoundGame.IdSupply

structure CIdMgr where
  iPlayerId : Int
  bLoading : Bool
  deriving DecidableEq

/-- What the id supply sends: two commands to gamedb, and the response to a `GenPlayerId` request. -/
inductive IdOut
  | loadAllId
  | saveAllId (player_id : Int)
  | respondId (id : Pid)
  deriving DecidableEq

namespace CIdMgr

def new : CIdMgr := ⟨1000, true⟩

variable (m : CIdMgr)

def isLoading : Bool := m.bLoading

def saveDb : Except String (List IdOut) :=
  if m.bLoading then .error "assertion failed!" else .ok [.saveAllId m.iPlayerId]

def loadDb : Except String (List IdOut) :=
  if m.bLoading then .ok [.loadAllId] else .error "assertion failed!"

/-- `mData` is `id_info`, given by its `player_id`. -/
def load (mData : Option (Option Int)) : CIdMgr :=
  match mData with
  | none => m
  | some player_id => { m with iPlayerId := player_id.getD m.iPlayerId }

def loadFinish : CIdMgr := { m with bLoading := false }

/-- The callback of `LoadDb`. -/
def loaded (mData : Option (Option Int)) : CIdMgr := (m.load mData).loadFinish

/-- The counter is raised before `SaveDb` may raise an error. -/
def genPlayerId : CIdMgr × Except String (List IdOut × Pid) :=
  let m' := { m with iPlayerId := m.iPlayerId + 1 }
  (m', m'.saveDb.map fun out => (out, m'.iPlayerId))

end CIdMgr

/-- The handler `GenPlayerId` of `logiccmd/common.lua`. -/
def genPlayerId (m : CIdMgr) : CIdMgr × Except String (List IdOut) :=
  if m.isLoading then (m, .error "assertion failed!")
  else
    let r := m.genPlayerId
    (r.1, r.2.map fun x => x.1 ++ [.respondId x.2])

/-- A request is refused while loading; otherwise the new id is saved, then returned. -/
theorem genPlayerId_eq (m : CIdMgr) :
    genPlayerId m =
      if m.bLoading then (m, .error "assertion failed!")
      else (⟨m.iPlayerId + 1, false⟩, .ok [.saveAllId (m.iPlayerId + 1), .respondId (m.iPlayerId + 1)]) := by
  obtain ⟨i, b⟩ := m
  cases b <;> rfl

end RoundGame.IdSupply
