import RoundGame.System.WarCommand

/-!
# The end of a war on both services

The world keeps the players of a war and the remote it is on, the war service its warriors. A player leaves and the war
ends on the war service, which tells the world by `RemoteLeavePlayer` and `RemoteWarEnd`; the world then drops the war
and sends `RemoveWar` back.

None of this comes about. `LeavePlayer` indexes the field `m_mWarrior`, which no war has (its table is `m_mWarriors`),
and `WarEnd` calls `PackWarEndInfo`, which no class defines, so both raise before they send (`told_leavePlayer`,
`told_warEnd`). In the world, `WarEnd` and `RemoteLeavePlayer` of `CWarMgr` look up the war under the global `iWar`
instead of their argument, so that a message changes nothing, whoever sent it (`handle_eq`). A war that has been created
is there for good (`never_torn_down`).
-/

namespace RoundGame.World

open Function Lua

/-- `CWar` of the world, with its players. `mFunc` lists the functions of `AddFunc` by their numbers. -/
structure WarObj extends CWar where
  mPlayers : Pid → Bool
  mCamp : Pid → Option Int
  mFunc : String → List Nat
  bWarEnd : Bool

def WarObj.new (iWar : WarId) (iRemote : Remote) : WarObj where
  iWarId := iWar
  iRemote := iRemote
  mPlayers _ := false
  mCamp _ := none
  mFunc _ := []
  bWarEnd := false

def WarObj.getFunc (oWar : WarObj) (sKey : String) : List Nat := oWar.mFunc sKey

/-- A message to a war service. -/
inductive ToRemote
  | confirmRemote (war_id : WarId)
  | addPlayer (war_id : WarId) (camp_id : Int) (pid : Pid)
  | removeWar (war_id : WarId)
  deriving DecidableEq

/-- A message to the world. Nothing reads what else there is in it. -/
inductive ToWorld
  | remoteWarEnd (war_id : WarId)
  | remoteLeavePlayer (war_id : WarId) (pid : Pid)

/-- A protected call of a function of `AddFunc`. -/
structure HookCall where
  iWar : WarId
  sKey : String
  func : Nat
  iPid : Option Pid
  deriving DecidableEq

/-- The wars of the world, and what it has done: the messages it has sent, the functions it has called, and the calls of
`CancelOnlineForever`, each with its war. -/
structure WarWorld where
  mWars : WarId → Option WarObj
  iDispatchId : WarId
  lRemote : List Remote
  iRemoteHash : Nat
  mOnlinePlayers : Pid → Bool
  sent : List (Remote × ToRemote)
  called : List HookCall
  cancelled : List (WarId × Pid)

namespace WarWorld

def send (iRemote : Remote) (m : ToRemote) : LuaM WarWorld PUnit :=
  modify fun g => { g with sent := g.sent ++ [(iRemote, m)] }

def setWar (iWar : WarId) (oWar : Option WarObj) : LuaM WarWorld PUnit :=
  modify fun g => { g with mWars := update g.mWars iWar oWar }

def getWar (g : WarWorld) (iWar : Option WarId) : Option WarObj := iWar.bind g.mWars

def dispatchId : LuaM WarWorld WarId := do
  let i := (← get).iDispatchId + 1
  let iDispatchId := if 0x7fffffff < i then 1 else i
  modify fun g => { g with iDispatchId := iDispatchId }
  return iDispatchId

def randomRemote : LuaM WarWorld (Option Remote) := do
  let g ← get
  let iRemoteHash := if g.lRemote.length < g.iRemoteHash + 1 then 1 else g.iRemoteHash + 1
  modify fun g => { g with iRemoteHash := iRemoteHash }
  return g.lRemote[iRemoteHash - 1]?

def createWar : LuaM WarWorld PUnit := do
  let iWar ← dispatchId
  match ← randomRemote with
  | none => throw "dest address type (nil) must be a string or number."
  | some iRemote =>
    send iRemote (.confirmRemote iWar)
    setWar iWar (some (WarObj.new iWar iRemote))

/-! ## `CWar` -/

def addPlayer (oWar : WarObj) (iCamp : Int) (iPid : Pid) : LuaM WarWorld PUnit := do
  setWar oWar.iWarId <| some
    { oWar with mPlayers := update oWar.mPlayers iPid true, mCamp := update oWar.mCamp iPid (some iCamp) }
  send oWar.iRemote (.addPlayer oWar.iWarId iCamp iPid)

def addFunc (oWar : WarObj) (sKey : String) (func : Nat) : LuaM WarWorld PUnit :=
  setWar oWar.iWarId (some { oWar with mFunc := update oWar.mFunc sKey (oWar.mFunc sKey ++ [func]) })

def callFunc (oWar : WarObj) (sKey : String) (iPid : Option Pid) : LuaM WarWorld PUnit :=
  modify fun g =>
    { g with called := g.called ++ (oWar.getFunc sKey).map fun func => ⟨oWar.iWarId, sKey, func, iPid⟩ }

/-- `CWar:WarEnd`. -/
def endWar (oWar : WarObj) : LuaM WarWorld PUnit := do
  if oWar.bWarEnd then return
  setWar oWar.iWarId (some { oWar with bWarEnd := true })
  callFunc oWar "pre_war_end" none
  callFunc oWar "war_end" none
  callFunc oWar "team_war_end" none
  send oWar.iRemote (.removeWar oWar.iWarId)

/-- `CWar:RemoteLeavePlayer`. -/
def leave (oWar : WarObj) (iPid : Pid) : LuaM WarWorld PUnit := do
  if !oWar.mPlayers iPid then return
  setWar oWar.iWarId <| some
    { oWar with mPlayers := update oWar.mPlayers iPid false, mCamp := update oWar.mCamp iPid none }
  if (← get).mOnlinePlayers iPid then
    modify fun g => { g with cancelled := g.cancelled ++ [(oWar.iWarId, iPid)] }
  callFunc oWar "leave_war" (some iPid)

/-! ## `CWarMgr` -/

def removeWar (iWar : Option WarId) : LuaM WarWorld PUnit := do
  match (← get).getWar iWar with
  | none => pure ⟨⟩
  | some oWar => setWar oWar.iWarId none

def warEnd (_iWarId : WarId) : LuaM WarWorld PUnit := do
  match (← get).getWar CWarMgr.iWar with
  | none => throw "assertion failed!"
  | some oWar =>
    endWar oWar
    removeWar CWarMgr.iWar

def remoteLeavePlayer (_iWarId : WarId) (iPid : Pid) : LuaM WarWorld PUnit := do
  match (← get).getWar CWarMgr.iWar with
  | none => pure ⟨⟩
  | some oWar => leave oWar iPid

/-- The functions of logiccmd, called under `safe_call`. -/
def handle (g : WarWorld) : ToWorld → WarWorld
  | .remoteWarEnd war_id => safeCall (warEnd war_id) g
  | .remoteLeavePlayer war_id pid => safeCall (remoteLeavePlayer war_id pid) g

/-- A message changes nothing. -/
theorem handle_eq (g : WarWorld) (m : ToWorld) : g.handle m = g := by
  cases m with
  | remoteWarEnd war_id => rfl
  | remoteLeavePlayer war_id pid => rfl

end WarWorld

end RoundGame.World

namespace RoundGame.War

open Function Lua World

/-- A war of the war service, and what the service has told the world. -/
structure RemoteWar where
  sys : WarSys
  told : List ToWorld

namespace RemoteWar

def tell (m : ToWorld) : LuaM RemoteWar PUnit := modify fun o => { o with told := o.told ++ [m] }

def onWar (x : LuaM WarSys PUnit) : LuaM RemoteWar PUnit := x.within sys fun s o => { o with sys := s }

/-- The field `m_mWarrior`. -/
def mWarrior : LuaM RemoteWar (Wid → Option CWarrior) := throw "attempt to index a nil value (field 'm_mWarrior')"

def packWarEndInfo : LuaM RemoteWar PUnit := throw "attempt to call a nil value (method 'PackWarEndInfo')"

/-- `AddPlayer` raises where it files the warrior of the player. -/
def addPlayer : LuaM RemoteWar PUnit := do
  let _ ← mWarrior

/-- `LeavePlayer`, for the warrior `iWid` of the player. The global `oWar`, which comes next, is not defined either. -/
def leavePlayer (iPid : Pid) (iWid : Wid) : LuaM RemoteWar PUnit := do
  let mWarrior ← mWarrior
  if (mWarrior iWid).isNone then return
  onWar (WarSys.onWar fun w => { w with
    mWarriors := update w.mWarriors iWid none
    mPid2Wid := w.mPid2Wid.filter fun p => p.1 ≠ iPid })
  throw "attempt to index a nil value (global 'oWar')"
  onWar WarSys.broadCast
  tell (.remoteLeavePlayer (← get).sys.war.iWarId iPid)

def warEnd : LuaM RemoteWar PUnit := do
  if (← get).sys.war.bWarEnd then return
  onWar (WarSys.onWar fun w => { w with bWarEnd := true })
  onWar WarSys.broadCast
  packWarEndInfo
  let w := (← get).sys.war
  w.mPid2Wid.forM fun p => if (w.mWarriors p.2).isSome then leavePlayer p.1 p.2 else pure ⟨⟩
  tell (.remoteWarEnd w.iWarId)

section Told

variable {l : List ToWorld}

theorem told_onWar (x : LuaM WarSys PUnit) : Keeps told (onWar x) := fun _ => rfl

/-- Nothing is told when a player leaves. -/
theorem told_leavePlayer (iPid : Pid) (iWid : Wid) : Keeps told (leavePlayer iPid iWid) := fun _ => rfl

/-- Nothing is told when a war ends. -/
theorem told_warEnd : Keeps told warEnd := by
  unfold warEnd
  refine Keeps.bind Keeps.get fun o => ?_
  split
  · exact Keeps.pure _
  · refine Keeps.bind (told_onWar _) fun _ => Keeps.bind (told_onWar _) fun _ => ?_
    -- `PackWarEndInfo` raises, whatever comes after it.
    exact fun _ => rfl

end Told

end RemoteWar

/-- `NewWar`, with `NewCampObj` read as `CCamp:New`: as it stands, it raises and there is no war. -/
def newWar (iWarId : WarId) : CWar where
  mWarriors _ := none
  iAnimationTime := 0
  iWarId := iWarId.toNat
  lCamp1 := []
  lCamp2 := []
  mPid2Wid := []
  iBout := 0
  iBoutOut := none
  iOperatorTime := 0
  mBoutCmd := []
  iWarStatus := none
  iWarResult := none
  bWarEnd := false

end RoundGame.War

namespace RoundGame.System

open Function Lua Base World War StepSys

/-- The world and the war services. Messages arrive in the order in which they were sent; `taken` counts those to a war
service that it has taken, and `heard` those from it that the world has. -/
structure Services where
  world : WarWorld
  remotes : Remote → WarId → Option WarSys
  told : Remote → List ToWorld
  taken : Remote → Nat
  heard : Remote → Nat

namespace Services

def init (lRemote : List Remote) (mOnlinePlayers : Pid → Bool) : Services where
  world := ⟨fun _ => none, 0, lRemote, 0, mOnlinePlayers, [], [], []⟩
  remotes _ _ := none
  told _ := []
  taken _ := 0
  heard _ := 0

/-- Code of a war of a war service; without the war, the `assert` raises. -/
def onRemote (s : Services) (r : Remote) (iWar : WarId) (x : LuaM RemoteWar PUnit) : Services :=
  match s.remotes r iWar with
  | none => s
  | some w =>
    let o := safeCall x ⟨w, s.told r⟩
    { s with
      remotes := update s.remotes r (update (s.remotes r) iWar (some o.sys))
      told := update s.told r o.told }

/-- The functions of logiccmd of a war service. Its `CWarMgr` has no `RemoveWar`. `ConfirmRemote` makes the war, by the
reading of `NewCampObj` in `newWar`. -/
def logic (s : Services) (r : Remote) : ToRemote → Services
  | .confirmRemote war_id =>
    let oWar : WarSys := ⟨newWar war_id, TimerSys.new, [], false⟩
    { s with remotes := update s.remotes r (update (s.remotes r) war_id (some oWar)) }
  | .addPlayer war_id _ _ => s.onRemote r war_id RemoteWar.addPlayer
  | .removeWar _ => s

/-- Code of the world on one of its wars. -/
def onWorld (s : Services) (iWar : WarId) (x : WarObj → LuaM WarWorld PUnit) : Option Services :=
  (s.world.mWars iWar).map fun oWar => { s with world := safeCall (x oWar) s.world }

inductive TeardownEv
  | createWar
  | addFunc (iWar : WarId) (sKey : String) (func : Nat)
  | addPlayer (iWar : WarId) (iCamp : Int) (iPid : Pid)
  /-- A player comes online or goes offline. -/
  | online (iPid : Pid) (bOnline : Bool)
  /-- The war service takes its next message. -/
  | take (r : Remote)
  | leavePlayer (r : Remote) (iWar : WarId) (iPid : Pid) (iWid : Wid)
  | warEnd (r : Remote) (iWar : WarId)
  /-- Any other code of a war of the war service; none of it tells the world anything. -/
  | other (r : Remote) (iWar : WarId) (x : LuaM WarSys PUnit)
  /-- The world takes the next message of the war service. -/
  | hear (r : Remote)

/-- The messages to a war service. -/
def toRemote (s : Services) (r : Remote) : List ToRemote := (s.world.sent.filter fun m => m.1 = r).map Prod.snd

def step (s : Services) : TeardownEv → Option Services
  | .createWar => some { s with world := safeCall WarWorld.createWar s.world }
  | .addFunc iWar sKey func => s.onWorld iWar fun oWar => WarWorld.addFunc oWar sKey func
  | .addPlayer iWar iCamp iPid => s.onWorld iWar fun oWar => WarWorld.addPlayer oWar iCamp iPid
  | .online iPid bOnline =>
    some { s with world := { s.world with mOnlinePlayers := update s.world.mOnlinePlayers iPid bOnline } }
  | .take r =>
    (s.toRemote r)[s.taken r]?.map fun m => { s.logic r m with taken := update s.taken r (s.taken r + 1) }
  | .leavePlayer r iWar iPid iWid => some (s.onRemote r iWar (RemoteWar.leavePlayer iPid iWid))
  | .warEnd r iWar => some (s.onRemote r iWar RemoteWar.warEnd)
  | .other r iWar x => some (s.onRemote r iWar (RemoteWar.onWar x))
  | .hear r =>
    (s.told r)[s.heard r]?.map fun m =>
      { s with world := s.world.handle m, heard := update s.heard r (s.heard r + 1) }

/-- The war `iWar` is torn down in the step from `s` to `t`, at the end of the run `es`. -/
structure TornDown (es : List TeardownEv) (iWar : WarId) (s t : WarWorld) : Prop where
  gone : t.mWars iWar = none
  removed : ∃ oWar, s.mWars iWar = some oWar ∧ t.sent.count (oWar.iRemote, .removeWar iWar) = 1
  left : ∀ oWar, s.mWars iWar = some oWar → ∀ iPid, oWar.mPlayers iPid = false ∧ oWar.mCamp iPid = none
  called : ∀ oWar, s.mWars iWar = some oWar → ∀ iCamp iPid, .addPlayer iWar iCamp iPid ∈ es →
    ∀ func ∈ oWar.getFunc "leave_war", t.called.count ⟨iWar, "leave_war", func, some iPid⟩ = 1
  cancelled : ∀ iCamp iPid, .addPlayer iWar iCamp iPid ∈ es → s.mOnlinePlayers iPid = true →
    t.cancelled.count (iWar, iPid) = 1
  others : ∀ i, i ≠ iWar → t.mWars i = s.mWars i

/-! ## What stays -/

section Stays

variable {S : WarId → Prop} {g : WarWorld} {s t : Services}

/-- The wars `S` are there, and nothing of a teardown has happened in the world. -/
structure Pinned (S : WarId → Prop) (g : WarWorld) : Prop where
  there : ∀ i, S i → (g.mWars i).isSome
  sent : ∀ r i, (r, .removeWar i) ∉ g.sent
  called : g.called = []
  cancelled : g.cancelled = []

/-- Nor have the war services told the world anything. -/
structure Still (S : WarId → Prop) (s : Services) : Prop where
  told : ∀ r, s.told r = []
  world : Pinned S s.world

theorem pinned_setWar (i : WarId) (oWar : WarObj) :
    Spec (Pinned S) (WarWorld.setWar i (some oWar)) (fun _ => Pinned S) (Pinned S) := by
  refine Spec.modify fun g h => { h with there := fun j hj => ?_ }
  show (update g.mWars i (some oWar) j).isSome
  by_cases hji : j = i
  · subst hji
    rw [update_self]
    rfl
  · rw [update_of_ne hji]
    exact h.there j hj

theorem pinned_send (r : Remote) {m : ToRemote} (hm : ∀ i, m ≠ .removeWar i) :
    Spec (Pinned S) (WarWorld.send r m) (fun _ => Pinned S) (Pinned S) := by
  refine Spec.modify fun g h => { h with sent := fun r' i hmem => ?_ }
  rcases List.mem_append.1 hmem with hold | hnew
  · exact h.sent r' i hold
  · exact hm i (congrArg Prod.snd (List.mem_singleton.1 hnew)).symm

theorem pinned_createWar : Spec (Pinned S) WarWorld.createWar (fun _ => Pinned S) (Pinned S) := by
  unfold WarWorld.createWar
  refine Spec.bind (R := fun _ => Pinned S) ?_ fun iWar => Spec.bind (R := fun _ => Pinned S) ?_ fun iRemote => ?_
  · unfold WarWorld.dispatchId
    refine Spec.get_bind fun g h => Spec.bind (R := fun _ => Pinned S) (Spec.modify ?_) fun _ => Spec.pure fun _ => id
    rintro _ rfl
    exact { h with }
  · unfold WarWorld.randomRemote
    refine Spec.get_bind fun g h => Spec.bind (R := fun _ => Pinned S) (Spec.modify ?_) fun _ => Spec.pure fun _ => id
    rintro _ rfl
    exact { h with }
  · cases iRemote with
    | none => exact Spec.throw fun _ => id
    | some iRemote => exact Spec.bind (pinned_send _ fun _ => nofun) fun _ => pinned_setWar _ _

theorem pinned_addPlayer (oWar : WarObj) (iCamp : Int) (iPid : Pid) :
    Spec (Pinned S) (WarWorld.addPlayer oWar iCamp iPid) (fun _ => Pinned S) (Pinned S) :=
  Spec.bind (pinned_setWar _ _) fun _ => pinned_send _ fun _ => nofun

theorem still_onWorld (h : Still S s) {iWar : WarId} {x : WarObj → LuaM WarWorld PUnit}
    (hx : ∀ oWar, Spec (Pinned S) (x oWar) (fun _ => Pinned S) (Pinned S)) (hs : s.onWorld iWar x = some t) :
    Still S t := by
  obtain ⟨oWar, -, rfl⟩ := Option.map_eq_some_iff.1 hs
  exact ⟨h.told, (hx oWar).safeCall h.world⟩

theorem still_onRemote (h : Still S s) (r : Remote) (iWar : WarId) {x : LuaM RemoteWar PUnit}
    (hx : Keeps RemoteWar.told x) : Still S (s.onRemote r iWar x) := by
  unfold onRemote
  split
  · exact h
  · rename_i w _
    refine ⟨fun r' => ?_, h.world⟩
    show update s.told r (safeCall x ⟨w, s.told r⟩).told r' = []
    rw [hx, update_eq_self]
    exact h.told r'

theorem still_step {e : TeardownEv} (h : Still S s) (hs : step s e = some t) : Still S t := by
  cases e with
  | createWar =>
    cases hs
    exact ⟨h.told, pinned_createWar.safeCall h.world⟩
  | addFunc iWar sKey func => exact still_onWorld h (fun oWar => pinned_setWar _ _) hs
  | addPlayer iWar iCamp iPid => exact still_onWorld h (fun oWar => pinned_addPlayer oWar iCamp iPid) hs
  | online iPid bOnline =>
    cases hs
    exact ⟨h.told, { h.world with }⟩
  | take r =>
    obtain ⟨m, -, rfl⟩ := Option.map_eq_some_iff.1 hs
    have hlogic : Still S (s.logic r m) := by
      cases m with
      | confirmRemote war_id => exact ⟨h.told, h.world⟩
      | addPlayer war_id camp_id pid => exact still_onRemote h r war_id fun _ => rfl
      | removeWar war_id => exact h
    exact ⟨hlogic.told, hlogic.world⟩
  | leavePlayer r iWar iPid iWid =>
    cases hs
    exact still_onRemote h r iWar (RemoteWar.told_leavePlayer iPid iWid)
  | warEnd r iWar =>
    cases hs
    exact still_onRemote h r iWar RemoteWar.told_warEnd
  | other r iWar x =>
    cases hs
    exact still_onRemote h r iWar (RemoteWar.told_onWar x)
  | hear r =>
    obtain ⟨m, hm, -⟩ := Option.map_eq_some_iff.1 hs
    rw [h.told r] at hm
    cases hm

theorem still_init (lRemote : List Remote) (mOnlinePlayers : Pid → Bool) :
    Still (fun _ => False) (init lRemote mOnlinePlayers) :=
  ⟨fun _ => rfl, ⟨fun _ hi => hi.elim, fun _ _ => List.not_mem_nil, rfl, rfl⟩⟩

/-- **No war is ever torn down**: once a war has been created, the war services never tell the world that a player has
left or a war has ended, the war is there for good, nothing of its teardown happens, and a `RemoteWarEnd` would not
change this. -/
theorem never_torn_down (lRemote : List Remote) (mOnlinePlayers : Pid → Bool) (es es' : List TeardownEv)
    (hs : run step (init lRemote mOnlinePlayers) es = some s) {iWar : WarId} (hwar : (s.world.mWars iWar).isSome)
    (ht : run step s es' = some t) :
    Still (· = iWar) t ∧ ¬ TornDown (es ++ es') iWar t.world (t.world.handle (.remoteWarEnd iWar)) := by
  have hinit := run_inv still_step (still_init lRemote mOnlinePlayers) hs
  have hstill : Still (· = iWar) s := ⟨hinit.told, { hinit.world with there := by rintro _ rfl; exact hwar }⟩
  have htill := run_inv still_step hstill ht
  refine ⟨htill, fun hdown => ?_⟩
  have hgone := hdown.gone
  rw [WarWorld.handle_eq] at hgone
  have hthere := htill.world.there iWar rfl
  rw [hgone] at hthere
  cases hthere

end Stays

/-- A player enters a war. -/
def entered : List TeardownEv := [.createWar, .addPlayer 1 1 101, .take ".war1", .take ".war1"]

/-- It leaves, and the war ends. -/
def departed : List TeardownEv := [.leavePlayer ".war1" 1 101 1, .warEnd ".war1" 1]

theorem never_torn_down_entered : ∃ s t,
    run step (init [".war1"] fun _ => true) entered = some s ∧ run step s departed = some t ∧
      Still (· = 1) t ∧ ¬ TornDown (entered ++ departed) 1 t.world (t.world.handle (.remoteWarEnd 1)) :=
  ⟨_, _, rfl, rfl, never_torn_down [".war1"] (fun _ => true) entered departed rfl rfl rfl⟩

/-- The world still has the war. -/
theorem not_torn_down : ∃ s, run step (init [".war1"] fun _ => true) (entered ++ departed) = some s ∧
    ¬ TornDown (entered ++ departed) 1 s.world (s.world.handle (.remoteWarEnd 1)) := by
  refine ⟨_, rfl, fun h => ?_⟩
  have hgone := h.gone
  rw [WarWorld.handle_eq] at hgone
  cases hgone

end Services

end RoundGame.System
