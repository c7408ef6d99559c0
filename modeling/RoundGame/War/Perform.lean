import RoundGame.War.CWar
import RoundGame.War.Warrior

/-!
# Performing a skill

`Perform` of `pfobj.lua` selects the victims, checks that the attacker can pay, takes the cost and performs on each
victim.

- The check and the payment fit together: when no cost exceeds what there is, each resource is lowered by its cost and
  no other is changed (`getInfo_doResume`).
- But the victims are asked for under the name `PerformTarget`, which no class defines (the method is `PerfromTarget`),
  so `Perform` raises before it does anything (`perform_eq`). It is right iff there is nothing to do
  (`performs_iff`).

The lists of the two sides and the status of a warrior, which the code calls but does not have, are parameters, and so
are the formulas of the costs.
-/

namespace RoundGame.War

open Lua

/-- `share["daobiao"]["perform"][iPerform]`. -/
structure PerformInfo where
  perform_type : Option Int
  range : Option Int
  target_type : Option Int
  target_status : Option Int
  resume : String

structure CPerform where
  iPerform : Int
  level : Option Int
  info : PerformInfo

/-- What is around the attacker: whether it is in a war, what `BroadCast` there does, its warriors, those of the two
sides with what `Status` gives for them, and `formula_string` with the level in its environment. -/
structure PerformEnv where
  inWar : Bool
  broadCast : Except String Unit
  warriors : Wid → Bool
  getFriendList : Fields Wid Int
  getEnemyList : Fields Wid Int
  formula_string : String → Int → Fields String Int

/-- The attacker, and the victims that have been performed on. -/
structure Performing where
  oAttack : WarriorObj
  hits : List Wid

namespace CPerform

variable (env : PerformEnv) (c : CPerform)

def getLevel : Int := c.level.getD 0

def performType : Option Int := c.info.perform_type

def performRange : Int := c.info.range.getD 1

def performTargetType : Int := c.info.target_type.getD 2

def performTargetStatus : Option Int := c.info.target_status

def performResume : Fields String Int := env.formula_string c.info.resume c.getLevel

def getWarObj : LuaM Performing PUnit := if env.inWar then pure ⟨⟩ else throw "assertion failed!"

/-- A field of the global `defines`, which `pfobj.lua` does not import. -/
def definesField (_sKey : String) : LuaM Performing Int := throw "attempt to index a nil value (global 'defines')"

/-- `self:PerformTarget`. -/
def performTarget : LuaM Performing (List Wid) := throw "attempt to call a nil value (method 'PerformTarget')"

/-- The loop of `PerfromTarget`. -/
def targets (iRange : Int) (iStatus : Option Int) : List (Wid × Int) → List Wid → List Wid
  | [], lTarget => lTarget
  | (iWid, status) :: l, lTarget =>
    if some status = iStatus then
      let lTarget := lTarget ++ [iWid]
      if iRange ≤ lTarget.length then lTarget else targets iRange iStatus l lTarget
    else targets iRange iStatus l lTarget

/-- The list of each branch is a local of that branch, and what is returned is the outer one. -/
def perfromTarget : LuaM Performing (List Wid) := do
  let lWarrior : Fields Wid Int := Fields.empty
  let iFriend ← definesField "PERFORM_TARGET_TYPE"
  let _branch := if c.performTargetType = iFriend then env.getFriendList else env.getEnemyList
  let _lTarget := targets c.performRange c.performTargetStatus lWarrior.entries []
  return lWarrior.keys

def checkResume (oAttack : WarriorObj) : Bool × Fields String Int :=
  let mResume := c.performResume env
  (mResume.entries.all fun e => !decide (oAttack.getInfo e.1 0 < e.2), mResume)

/-- `oAttack:RefreshClientProp(mResume, true)`: the warriors of all three types index `net`, which none of their files
requires. -/
def refreshClientProp : LuaM Performing PUnit := throw "attempt to index a nil value (global 'net')"

/-- One turn of the loop of `DoResume`. -/
def pay (e : String × Int) (o : WarriorObj) : WarriorObj := o.setInfo e.1 (max 0 (o.getInfo e.1 0 - e.2))

def doResume (mResume : Fields String Int) : LuaM Performing PUnit := do
  mResume.entries.forM fun e => modify fun s => { s with oAttack := pay e s.oAttack }
  refreshClientProp

/-- The global `iType`, which is compared to the constant, is `nil`. -/
def truePerform (iVictim : Wid) : LuaM Performing PUnit := do
  getWarObj env
  if !env.warriors iVictim then return
  let iPhyAttack ← definesField "PERFORM_TYPE"
  if (none : Option Int) = some iPhyAttack then modify fun s => { s with hits := s.hits ++ [iVictim] }

def doPerform (lVictim : List Wid) : LuaM Performing PUnit := do
  getWarObj env
  LuaM.lift env.broadCast
  let _iType := c.performType
  lVictim.forM (truePerform env)

def endPerform : LuaM Performing PUnit := pure ⟨⟩

def perform : LuaM Performing PUnit := do
  getWarObj env
  let lVictim ← performTarget
  if lVictim.length ≤ 0 then return
  let r := c.checkResume env (← get).oAttack
  if !r.1 then return
  doResume r.2
  c.doPerform env lVictim
  endPerform

/-! ## What a skill has to do -/

/-- A warrior of the side and with the status of the skill. -/
def Eligible (iWid : Wid) : Prop :=
  ∃ status, (if c.performTargetType = 1 then env.getFriendList else env.getEnemyList).get iWid = some status ∧
    c.performTargetStatus = some status

/-- There is nobody to perform on, or the attacker cannot pay. -/
def Blocked (o : WarriorObj) : Prop :=
  (∀ iWid, ¬ c.Eligible env iWid) ∨ ∃ sKey iVal, (c.performResume env).get sKey = some iVal ∧ o.getInfo sKey 0 < iVal

/-- Nothing is paid and nobody is performed on. -/
structure Idle (s t : Performing) : Prop where
  info : t.oAttack.mInfo = s.oAttack.mInfo
  hits : t.hits = s.hits

/-- The cost is paid, and the skill is performed on some of the warriors it is for. -/
structure Performed (s t : Performing) : Prop where
  info : ∀ sKey, t.oAttack.getInfo sKey 0 = s.oAttack.getInfo sKey 0 - ((c.performResume env).get sKey).getD 0
  nonneg : ∀ sKey ∈ (c.performResume env).keys, 0 ≤ t.oAttack.getInfo sKey 0
  hits : ∃ l, t.hits = s.hits ++ l ∧ l ≠ [] ∧ l.length ≤ c.performRange ∧ l.Nodup ∧ ∀ iWid ∈ l, c.Eligible env iWid

/-- `Perform` does nothing, exactly when it is blocked, or else pays and performs. -/
def Performs (s : Performing) : Prop :=
  (Idle s (safeCall (c.perform env) s) ↔ c.Blocked env s.oAttack) ∧
    (Idle s (safeCall (c.perform env) s) ∨ c.Performed env s (safeCall (c.perform env) s))

variable {env c} {s : Performing} {o : WarriorObj}

/-! ## Paying -/

theorem checkResume_iff : (c.checkResume env o).1 = true ↔
    ∀ sKey iVal, (c.performResume env).get sKey = some iVal → iVal ≤ o.getInfo sKey 0 := by
  simp only [checkResume, List.all_eq_true, Bool.not_eq_true', decide_eq_false_iff_not, Int.not_lt, Prod.forall,
    Fields.get_eq_some_iff]

theorem getInfo_pay (e : String × Int) (sKey : String) :
    (pay e o).getInfo sKey 0 = if sKey = e.1 then max 0 (o.getInfo sKey 0 - e.2) else o.getInfo sKey 0 := by
  by_cases hkey : sKey = e.1
  · subst hkey
    simp [pay, WarriorObj.getInfo, WarriorObj.setInfo]
  · simp [pay, WarriorObj.getInfo, WarriorObj.setInfo, hkey]

/-- What the attacker has after the payment, which it can afford. -/
theorem getInfo_doResume (h : (c.checkResume env s.oAttack).1 = true) (sKey : String) :
    (safeCall (doResume (c.performResume env)) s).oAttack.getInfo sKey 0 =
      s.oAttack.getInfo sKey 0 - ((c.performResume env).get sKey).getD 0 := by
  have hfold : ∀ (l : List (String × Int)) (s : Performing),
      (l.foldl (fun s e => { s with oAttack := pay e s.oAttack }) s).oAttack =
        l.foldl (fun o e => pay e o) s.oAttack := by
    intro l
    induction l with
    | nil => exact fun _ => rfl
    | cons e l ih => exact fun s => ih _
  have hexec : (safeCall (doResume (c.performResume env)) s).oAttack =
      (c.performResume env).entries.foldl (fun o e => pay e o) s.oAttack := by
    unfold safeCall doResume
    rw [LuaM.exec_bind, LuaM.exec_forM_modify]
    exact hfold _ s
  rw [hexec, Fields.view_foldl (fun o sKey => WarriorObj.getInfo o sKey 0) (fun e i => max 0 (i - e.2))
    (fun o e sKey => getInfo_pay e sKey) (List.Perm.refl _)]
  cases hcost : (c.performResume env).get sKey with
  | none => simp
  | some iVal =>
    have hle := checkResume_iff.1 h sKey iVal hcost
    simp only [Option.elim_some, Option.getD_some]
    omega

/-! ## Performing -/

theorem perfromTarget_raises : (c.perfromTarget env).exec s =
    (.error "attempt to index a nil value (global 'defines')", s) := rfl

/-- `Perform` raises at the latest where it asks for the victims. -/
theorem perform_eq : safeCall (c.perform env) s = s := by
  unfold safeCall perform getWarObj
  cases env.inWar with
  | true => rfl
  | false => rfl

theorem idle_perform : Idle s (safeCall (c.perform env) s) := by
  rw [perform_eq]
  exact ⟨rfl, rfl⟩

/-- **A skill** is performed as it should be iff it is blocked. -/
theorem performs_iff (env : PerformEnv) (c : CPerform) (s : Performing) :
    c.Performs env s ↔ c.Blocked env s.oAttack :=
  ⟨fun h => h.1.1 idle_perform, fun h => ⟨iff_of_true idle_perform h, Or.inl idle_perform⟩⟩

/-- An attacker with enough to pay, and an enemy. -/
theorem not_performs : ¬ ∀ (env : PerformEnv) (c : CPerform) (s : Performing), env.inWar = true → 0 < c.performRange →
    (∀ sKey iVal, (c.performResume env).get sKey = some iVal → 0 ≤ iVal) → c.Performs env s := by
  intro h
  have hcosts : ∀ sKey iVal, ((Fields.empty : Fields String Int).put "mp" (some 5)).get sKey = some iVal →
      sKey = "mp" ∧ iVal = 5 := by
    intro sKey iVal hget
    rw [Fields.get_eq_some_iff] at hget
    exact Prod.mk.inj (List.mem_singleton.1 hget)
  have hperforms := h
    ⟨true, .ok (), fun _ => true, Fields.empty, Fields.empty.put 2 (some 1), fun _ _ => Fields.empty.put "mp" (some 5)⟩
    ⟨101, some 1, ⟨some 1, some 1, some 2, some 1, ""⟩⟩ ⟨⟨fun _ => some 10, fun _ => none, []⟩, []⟩ rfl (by decide) ?_
  · rcases hperforms.1.1 idle_perform with hnobody | ⟨sKey, iVal, hcost, hless⟩
    · exact hnobody 2 ⟨1, rfl, rfl⟩
    · obtain ⟨rfl, rfl⟩ := hcosts sKey iVal hcost
      exact absurd hless (by decide)
  · intro sKey iVal hcost
    obtain ⟨rfl, rfl⟩ := hcosts sKey iVal hcost
    decide

end CPerform

end RoundGame.War
