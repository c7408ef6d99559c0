import RoundGame.War.Rounds

/-!
# The commands of the players, from the world to the wars

`C2GSWarSkill` and `C2GSWarNormalAttack` are taken by the netcmd of the world, go through `CWarMgr` and
`CWar:Forward` of the world to the remote of the war, and there through logiccmd to `AddBoutCmd`.

Both functions of `CWarMgr` look up the war under `iWar`, a global that nothing assigns, instead of their argument
`iWarId`, so no command is ever forwarded (`handle_eq`).
-/

namespace RoundGame.World

abbrev WarId := Int

/-- The address of a war service. -/
abbrev Remote := String

/-- The `net` of a message: the fields that the client sends. -/
inductive C2GSWar
  | skill (wid skill_id target : Int)
  | normalAttack (wid target : Int)

/-- The argument of `interactive.send` to a remote. -/
structure Forwarded where
  remote : Remote
  war_id : WarId
  pid : Pid
  net : C2GSWar

/-- `CWar` of the world. -/
structure CWar where
  iWarId : WarId
  iRemote : Remote

def CWar.forward (w : CWar) (iPid : Pid) (mData : C2GSWar) : Forwarded := ⟨w.iRemote, w.iWarId, iPid, mData⟩

/-- `CWarMgr` of the world. -/
structure CWarMgr where
  mWars : WarId → Option CWar

namespace CWarMgr

/-- A table has nothing under `nil`. -/
def getWar (g : CWarMgr) (iWar : Option WarId) : Option CWar := iWar.bind g.mWars

/-- The global `iWar`. -/
def iWar : Option WarId := none

def warSkill (g : CWarMgr) (_iWarId : Option WarId) (iPid : Pid) (mData : C2GSWar) : List Forwarded :=
  match g.getWar iWar with
  | none => []
  | some oWar => [oWar.forward iPid mData]

def warNormalAttack (g : CWarMgr) (_iWarId : Option WarId) (iPid : Pid) (mData : C2GSWar) : List Forwarded :=
  match g.getWar iWar with
  | none => []
  | some oWar => [oWar.forward iPid mData]

/-- The functions of netcmd. `iWarId` is what `oPlayer:GetWarId()` returns, or the error that it raises: no class
defines it. -/
def c2gs (g : CWarMgr) (iWarId : Except String (Option WarId)) (iPid : Pid) (mData : C2GSWar) : List Forwarded :=
  match iWarId with
  | .error _ => []
  | .ok none => []
  | .ok (some iWarId) =>
    match mData with
    | .skill .. => g.warSkill iWar iPid mData
    | .normalAttack .. => g.warNormalAttack (some iWarId) iPid mData

end CWarMgr

end RoundGame.World

namespace RoundGame.System

open Function Lua World War

/-- The command of a message. -/
def mCmd : C2GSWar → MCmd
  | .skill _ skill_id target => .skill skill_id target
  | .normalAttack _ target => .normalAttack target

/-- `mData.net.wid`, as the client has sent it. -/
def wid : C2GSWar → Wid
  | .skill wid _ _ => wid
  | .normalAttack wid _ => wid

/-- The world and the wars on the remotes. -/
structure Wars where
  mgr : CWarMgr
  remotes : Remote → WarId → Option WarSys

namespace Wars

/-- `C2GSWarSkill` and `C2GSWarNormalAttack` of logiccmd; without a war the `assert` raises. -/
def logic (env : WarEnv) (s : Wars) (m : Forwarded) : Wars :=
  match s.remotes m.remote m.war_id with
  | none => s
  | some oWar =>
    let oWar := safeCall (WarSys.addBoutCmd env (wid m.net) (mCmd m.net)) oWar
    let mWars := update (s.remotes m.remote) m.war_id (some oWar)
    { s with remotes := update s.remotes m.remote mWars }

/-- A message of the player `iPid`, up to the commands it leaves. -/
def handle (env : WarEnv) (s : Wars) (iWarId : Except String (Option WarId)) (iPid : Pid) (mData : C2GSWar) : Wars :=
  (s.mgr.c2gs iWarId iPid mData).foldl (logic env) s

/-- The war `iWarId`, when it exists in the world and on its remote. -/
def war (s : Wars) (iWarId : WarId) : Option (Remote × WarSys) :=
  (s.mgr.mWars iWarId).bind fun oWar => (s.remotes oWar.iRemote iWarId).map fun w => (oWar.iRemote, w)

/-- The command that is recorded for a warrior. -/
def recorded (s : Wars) (r : Remote) (iWarId : WarId) (iWid : Wid) : Option MCmd :=
  (s.remotes r iWarId).bind fun w => w.war.getBoutCmd iWid

/-- The player's own warrior. -/
def Own (w : WarSys) (iPid : Pid) (iWid : Wid) : Prop := w.war.mPid2Wid.lookup iPid = some iWid

/-- What a message of the player `iPid`, who is in the war `iWarId`, should make of the wars `s`. -/
structure Commanded (s : Wars) (iPid : Pid) (iWarId : WarId) (mData : C2GSWar) (t : Wars) : Prop where
  /-- The command of the player's own warrior is the one sent. -/
  own : ∀ r w iWid, s.war iWarId = some (r, w) → Own w iPid iWid → t.recorded r iWarId iWid = some (mCmd mData)
  /-- No other command changes. -/
  others : ∀ r i iWid, (∀ w, s.war iWarId = some (r, w) → i = iWarId → ¬ Own w iPid iWid) →
    t.recorded r i iWid = s.recorded r i iWid
  /-- Without the war nothing changes. -/
  nothing : s.war iWarId = none → t = s

theorem c2gs_eq (g : CWarMgr) (iWarId : Except String (Option WarId)) (iPid : Pid) (mData : C2GSWar) :
    g.c2gs iWarId iPid mData = [] := by
  cases iWarId with
  | error e => rfl
  | ok iWarId =>
    cases iWarId with
    | none => rfl
    | some i => cases mData <;> rfl

/-- No command reaches a war. -/
theorem handle_eq (env : WarEnv) (s : Wars) (iWarId : Except String (Option WarId)) (iPid : Pid) (mData : C2GSWar) :
    s.handle env iWarId iPid mData = s := by
  unfold handle
  rw [c2gs_eq]
  rfl

/-- **A player commands its own warrior** iff that command is recorded already, or the war does not exist. -/
theorem commanded_iff (env : WarEnv) (s : Wars) (r : Except String (Option WarId)) (iPid : Pid) (iWarId : WarId)
    (mData : C2GSWar) : Commanded s iPid iWarId mData (s.handle env r iPid mData) ↔
      ∀ r w iWid, s.war iWarId = some (r, w) → Own w iPid iWid → w.war.getBoutCmd iWid = some (mCmd mData) := by
  rw [handle_eq]
  have hrec : ∀ r w iWid, s.war iWarId = some (r, w) → s.recorded r iWarId iWid = w.war.getBoutCmd iWid := by
    intro r w iWid hw
    obtain ⟨oWar, -, hr⟩ := Option.bind_eq_some_iff.1 hw
    obtain ⟨w', hw', heq⟩ := Option.map_eq_some_iff.1 hr
    cases heq
    unfold recorded
    rw [hw']
    rfl
  constructor
  · intro h r w iWid hw hown
    rw [← hrec r w iWid hw]
    exact h.own r w iWid hw hown
  · intro h
    refine ⟨fun r w iWid hw hown => ?_, fun _ _ _ _ => rfl, fun _ => rfl⟩
    rw [hrec r w iWid hw]
    exact h r w iWid hw hown

/-- The war of two players, on one remote. -/
def duelWars : Wars where
  mgr := ⟨fun i => if i = 1 then some ⟨1, ".war1"⟩ else none⟩
  remotes r i := if r = ".war1" ∧ i = 1 then some (WarSys.init WarSys.duel) else none

/-- The player 101 attacks with its own warrior, and the command is lost. -/
theorem not_commanded : ¬ Commanded duelWars 101 1 (.normalAttack 1 3)
    (duelWars.handle ⟨fun _ _ f => f, fun i _ => i⟩ (.ok (some 1)) 101 (.normalAttack 1 3)) := by
  intro h
  have hcmd := h.own ".war1" (WarSys.init WarSys.duel) 1 rfl rfl
  rw [handle_eq] at hcmd
  cases hcmd

end Wars

end RoundGame.System
