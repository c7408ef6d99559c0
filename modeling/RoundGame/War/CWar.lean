import RoundGame.Base.Defs
import RoundGame.Base.TimerKey
import RoundGame.Lib.LuaSpec

/-!
# A war and its rounds

`CWar` of the war service. `BoutStart` opens a round: it clears the commands and arms `BoutProcess`. A round is closed
by that timeout, or by the `AddBoutCmd` that fills the command table; both go through `BoutProcess`, which calls
`BoutExecute` and arms the next `BoutStart` or `WarEnd`.

Three names the code calls are not defined anywhere, and are read as what the code around them means: `NewCampObj` as
`CCamp:New`, `DelTimeDb` as `DelTimeCb`, and `CCamp:GetAliveCount` as the number of living warriors. Of the others,
`OnWarStart` and `PackWarEndInfo` are called outside of `safe_call` and raise, and `net` is not required in
`playerwarrior.lua`, so a `BroadCast` to a player raises too.
-/

namespace RoundGame.War

open Function Lua Base

abbrev Wid := Int

inductive WarriorType
  | player | summon | npc
  deriving DecidableEq

/-- `m_iHp` is `GetInfo("hp", 0)`. -/
structure CWarrior where
  iType : WarriorType
  iHp : Int
  bAction : Bool

def CWarrior.isPlayer (o : CWarrior) : Bool := o.iType = .player

def CWarrior.isAlive (o : CWarrior) : Bool := 0 < o.iHp

/-- A command, with its `data`. -/
inductive MCmd
  | skill (iSkill iTarget : Int)
  | normalAttack (iTarget : Int)
  | other (sCmd : String)
  deriving DecidableEq

/-- `mIgnoreSpeed[sCmd]`. -/
def MCmd.ignoreSpeed : MCmd → Bool
  | .other sCmd => sCmd ∈ ["defense", "protect"]
  | _ => false

inductive WarStatus
  | operator | animation
  deriving DecidableEq

/-- What an action changes. -/
structure Fight where
  mWarriors : Wid → Option CWarrior
  iAnimationTime : Int

/-- `global.oActionMgr`, a protected call of `WarSkill` or `WarNormalAttack`, and `math.random`. -/
structure WarEnv where
  act : Wid → MCmd → Fight → Fight
  random : Nat → Nat → Nat

/-- The entries of the tables `m_mPid2Wid` and `m_mBoutCmd` are listed; the camps list their warriors. -/
structure CWar extends Fight where
  iWarId : Nat
  lCamp1 : List Wid
  lCamp2 : List Wid
  mPid2Wid : List (Pid × Wid)
  iBout : Nat
  iBoutOut : Option Nat
  iOperatorTime : Int
  mBoutCmd : List (Wid × MCmd)
  iWarStatus : Option WarStatus
  iWarResult : Option Nat
  bWarEnd : Bool

/-- `self.m_mBoutCmd[iWid] = mCmd`. -/
def setCmd (iWid : Wid) (mCmd : MCmd) (l : List (Wid × MCmd)) : List (Wid × MCmd) :=
  (iWid, mCmd) :: l.filter fun c => c.1 ≠ iWid

namespace CWar

def getBoutCmd (w : CWar) (iWid : Wid) : Option MCmd := w.mBoutCmd.lookup iWid

def getAliveCount (w : CWar) (lCamp : List Wid) : Nat :=
  (lCamp.filter fun iWid => (w.mWarriors iWid).any CWarrior.isAlive).length

/-- The warriors of the players. -/
def ownWids (w : CWar) : List Wid := w.mPid2Wid.map Prod.snd

end CWar

/-! ## The state of a run -/

/-- What a run has seen of the rounds. -/
inductive Mark
  | start (now : Nat)
  | cmd (iWid : Wid)
  | exec (now : Nat)
  deriving DecidableEq

/-- A war and its timer, which counts in hundredths of a second. `log` lists the marks, the last one first; `hung` says
that the service is in a loop it does not leave. -/
structure WarSys where
  war : CWar
  timer : TimerSys String
  log : List Mark
  hung : Bool

namespace WarSys

def mark (m : WarSys → Mark) : LuaM WarSys PUnit := modify fun s => { s with log := m s :: s.log }

def onWar (u : CWar → CWar) : LuaM WarSys PUnit := modify fun s => { s with war := u s.war }

/-- `get_time`, from the start of the run. -/
def getTime (s : WarSys) : Int := s.timer.now / 100

def delTimeCb (sKey : String) : LuaM WarSys PUnit := modify fun s => { s with timer := s.timer.delTimeCb sKey }

def addTimeCb (sKey : String) (iDelay : Int) : LuaM WarSys PUnit := do
  if iDelay ≤ 0 then throw "assertion failed!"
  modify fun s => { s with timer := s.timer.addTimeCb sKey iDelay.toNat }

/-- The five calls that `BoutStart` and `BoutProcess` begin with. -/
def delTimeCbs : LuaM WarSys PUnit :=
  ["BoutStart", "BoutEnd", "BoutProcess", "CheckAutoPerform", "WarEnd"].forM delTimeCb

/-- `Send` of a player's warrior raises. -/
def broadCast : LuaM WarSys PUnit := do
  let w := (← get).war
  w.mPid2Wid.forM fun p =>
    match w.mWarriors p.2 with
    | some oWarrior => if oWarrior.isPlayer then throw "attempt to index a nil value (global 'net')" else pure ⟨⟩
    | none => pure ⟨⟩

/-! ## `BoutExecute` -/

def setAction (iWid : Wid) : LuaM WarSys PUnit :=
  onWar fun w => { w with
    mWarriors := update w.mWarriors iWid ((w.mWarriors iWid).map fun o => { o with bAction := true }) }

/-- The loop of `BoutExecute` on a list of one entry. A warrior that is dead stays in the list, and the loop goes on
with it. -/
def executeCmd (env : WarEnv) (c : Wid × MCmd) : LuaM WarSys Bool := do
  match (← get).war.mWarriors c.1 with
  | some oWarrior =>
    if !oWarrior.isAlive then return false
    setAction c.1
    onWar fun w => { w with toFight := env.act c.1 c.2 w.toFight }
    return true
  | none => return true

/-- Whether `BoutExecute` returns. `GetSpeed` is 100 for every warrior, and at equal speeds `sort_func` calls the method
`GetWid` of a list; it is called whenever there are two entries to sort. -/
def boutExecute (env : WarEnv) : LuaM WarSys Bool := do
  let w := (← get).war
  let lCmd := w.mBoutCmd.filter fun c => (w.mWarriors c.1).isSome
  (lCmd.filter fun c => c.2.ignoreSpeed).forM fun c => setAction c.1
  match lCmd.filter fun c => !c.2.ignoreSpeed with
  | [] => return true
  | [c] => executeCmd env c
  | _ => throw "attempt to call a nil value (method 'GetWid')"

/-! ## The rounds -/

def addOperatorTime (iAdd : Int) : LuaM WarSys PUnit := do
  let s ← get
  onWar fun w => { w with iOperatorTime := s.getTime + iAdd }

def getOperatorTime (s : WarSys) : Int := max 0 (s.war.iOperatorTime - s.getTime)

def boutStart : LuaM WarSys PUnit := do
  mark fun s => .start s.timer.now
  delTimeCbs
  onWar fun w => { w with iBout := w.iBout + 1 }
  if (← get).war.iBout = 1 then throw "attempt to call a nil value (method 'OnWarStart')"
  onWar fun w => { w with mBoutCmd := [], iWarStatus := some .operator }
  addOperatorTime 30
  broadCast
  addTimeCb "CheckAutoPerform" (3 * 1000)
  addTimeCb "BoutProcess" (← get).getOperatorTime

def warStart : LuaM WarSys PUnit := boutStart

/-- No warrior is `IsAutoOperator`. -/
def checkAutoPerform : LuaM WarSys PUnit := delTimeCb "CheckAutoPerform"

/-- What `BoutProcess` does after `BoutExecute`. There is no `BoutEnd`, and its call is protected. -/
def boutFinish (env : WarEnv) : LuaM WarSys PUnit := do
  broadCast
  let w := (← get).war
  let iCampAlive1 := w.getAliveCount w.lCamp1
  let iCampAlive2 := w.getAliveCount w.lCamp2
  if iCampAlive1 < 0 then
    onWar fun w => { w with iWarResult := some 2 }
    addTimeCb "WarEnd" w.iAnimationTime
  else if iCampAlive2 < 0 then
    onWar fun w => { w with iWarResult := some 1 }
    addTimeCb "WarEnd" w.iAnimationTime
  else
    match w.iBoutOut with
    | none => throw "attempt to compare nil with number"
    | some iBoutOut =>
      if iBoutOut ≤ w.iBout then
        onWar fun w => { w with iWarResult := some (env.random 1 2) }
        addTimeCb "WarEnd" w.iAnimationTime
      else addTimeCb "BoutStart" w.iAnimationTime

def boutProcess (env : WarEnv) : LuaM WarSys PUnit := do
  delTimeCbs
  onWar fun w => { w with iWarStatus := some .animation }
  mark fun s => .exec s.timer.now
  match ← (boutExecute env).protect with
  | some false => modify fun s => { s with hung := true }
  | _ => boutFinish env

/-- `AICommand` does nothing. -/
def onAIBoutProcess (env : WarEnv) : LuaM WarSys PUnit := do
  delTimeCb "BoutProcess"
  boutProcess env

def warEnd : LuaM WarSys PUnit := do
  if (← get).war.bWarEnd then return
  onWar fun w => { w with bWarEnd := true }
  broadCast
  throw "attempt to call a nil value (method 'PackWarEndInfo')"

def addBoutCmd (env : WarEnv) (iWid : Wid) (mCmd : MCmd) : LuaM WarSys PUnit := do
  mark fun _ => .cmd iWid
  onWar fun w => { w with mBoutCmd := setCmd iWid mCmd w.mBoutCmd }
  let w := (← get).war
  if w.mPid2Wid.length ≤ w.mBoutCmd.length then
    delTimeCb "BoutProcess"
    boutProcess env

/-! ## Steps -/

/-- The callback registered under a key. `GetWar` finds the war: nothing takes one out of `m_mWars`. -/
def callback (env : WarEnv) : String → LuaM WarSys PUnit
  | "BoutStart" => boutStart
  | "BoutProcess" => onAIBoutProcess env
  | "CheckAutoPerform" => checkAutoPerform
  | "WarEnd" => warEnd
  | _ => pure ⟨⟩

inductive WarEv
  | addBoutCmd (iWid : Wid) (mCmd : MCmd)
  /-- The clock moves on. -/
  | tick (n : Nat)
  /-- `skynet` runs the closure of registration `n`. -/
  | fire (n : Nat)

/-- A closure runs: the callback that its id has, if there is one, and the end of the closure. -/
def fire (env : WarEnv) (s : WarSys) (t : Timeout String) : WarSys :=
  let s₁ := { s with timer := s.timer.start t }
  match s.timer.timer.mIndex2Func t.iCb with
  | none => s₁
  | some f =>
    let s₂ := safeCall (callback env (s.timer.keys.getD f "")) s₁
    if s₂.hung then s₂ else { s₂ with timer := s₂.timer.finish t }

def step (env : WarEnv) (s : WarSys) : WarEv → Option WarSys
  | .addBoutCmd iWid mCmd => if s.hung then none else some (safeCall (addBoutCmd env iWid mCmd) s)
  | .tick n => some { s with timer := { s.timer with now := s.timer.now + n } }
  | .fire n =>
    if s.hung then none
    else (s.timer.pending.find? fun t => t.reg = n ∧ t.due ≤ s.timer.now).map (s.fire env)

/-- `WarStart` of a war; the status and the commands are as `New` leaves them. -/
def init (w : CWar) : WarSys :=
  safeCall warStart ⟨{ w with iWarStatus := none, mBoutCmd := [] }, TimerSys.new, [], false⟩

end WarSys

end RoundGame.War
