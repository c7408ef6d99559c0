import RoundGame.Lib.PMap
import RoundGame.Base.Defs

/-!
# The login service: connections and their messages

A `CConnection` is one client socket. Its methods are functions from the connection and the arguments to the
connection afterwards and the messages sent, in order; a method that can raise returns an `Except`, and the
connection is then as it was, since no method assigns a field before it raises. A request is sent with a callback
that finds the connection by its socket again when the response comes; the response methods are `afterGetRoleList`,
`afterGetPlayerId` and `afterInsertNameAndPid`.

`ValidCreateRole` reads `m_lRolelist`, which no code assigns (the list is `m_lRoleList`), so a request that gets
that far raises (`createRole_eq`).
-/

namespace RoundGame.Login

open Function

/-! ## `defines.lua` -/

inductive LoginCode
  | loginOk | loginWrongPwd | loginAccountUnexist | loginServerUnopen | loginNameDuplicate | loginPidUnexist
  | loginUnloadRole | loginRoleLimit
  deriving DecidableEq

def LoginCode.errcode : LoginCode → Nat
  | .loginOk => 1
  | .loginWrongPwd => 2
  | .loginAccountUnexist => 3
  | .loginServerUnopen => 4
  | .loginNameDuplicate => 5
  | .loginPidUnexist => 6
  | .loginUnloadRole => 7
  | .loginRoleLimit => 8

inductive StatusLogin
  | statusInit | statusRole
  deriving DecidableEq

def StatusLogin.toNat : StatusLogin → Nat
  | .statusInit => 0
  | .statusRole => 1

def maxRoleLimit : Nat := 3

/-! ## Messages -/

/-- What a connection sends: `text` commands to the gate, messages to the client, requests and messages to other
services. The parameters of a request include what its callback keeps. -/
inductive Out
  | forward (fd : Fd)
  | start (fd : Fd)
  | gs2cHello
  | gs2cLoginError (errcode : LoginCode)
  | gs2cSelectRole (roleList : List Role)
  | getRoleList (account : String)
  | genPlayerId (name : String) (icon : Int)
  | insertPlayerNameAndPid (name : String) (icon : Int) (pid : Pid)
  | saveRoleList (roleinfo : List Role) (account : Option String)
  | loginPlayer (pid : Pid) (role : MRole)
  | kickConnection (fd : Fd)
  deriving DecidableEq

/-- The response to `GetRoleList`: no document, or a document with or without `roleinfo`, its entries in the order
`pairs` visits them. -/
abbrev RoleReply := Option (Option (List Role))

/-! ## `CConnection` -/

structure CConnection where
  iGateAddr : Addr
  iFd : Fd
  iPort : Option Int
  sAccount : Option String
  lRoleList : List Role
  iStatus : StatusLogin
  deriving DecidableEq

/-- Lua's `%s` in the C locale. -/
def isSpace (c : Char) : Bool := c ∈ [' ', '\t', '\n', '\x0b', '\x0c', '\x0d']

/-- `trim` of `stringop.lua`. -/
def trim (s : String) : List Char := ((s.toList.dropWhile isSpace).reverse.dropWhile isSpace).reverse

/-- Lua's `#` on a field that may be `nil`. -/
def luaLen {α : Type} (field : String) : Option (List α) → Except String Nat
  | some l => .ok l.length
  | none => .error ("attempt to get length of a nil value (field '" ++ field ++ "')")

namespace CConnection

def new (iGateAddr : Addr) (iFd : Fd) (iPort : Option Int) : CConnection :=
  ⟨iGateAddr, iFd, iPort, none, [], .statusInit⟩

variable (c : CConnection)

def forward : List Out := [.forward c.iFd, .start c.iFd, .gs2cHello]

def onRemove : List Out := [.kickConnection c.iFd]

def login (iPid : Pid) : List Out :=
  match c.sAccount with
  | none => []
  | some sAccount => [.loginPlayer iPid ⟨sAccount, c.iGateAddr, c.iFd, c.iPort⟩]

def validLoginByAccount (sAccount _sPwd : String) : LoginCode :=
  if (trim sAccount).length ≤ 0 then .loginAccountUnexist else .loginOk

def loginAccount (sAccount sPwd : String) : CConnection × List Out :=
  let iRet := validLoginByAccount sAccount sPwd
  if iRet ≠ .loginOk then (c, [.gs2cLoginError iRet])
  else ({ c with sAccount := some sAccount }, [.getRoleList sAccount])

/-- Without a document `mData` is `nil`, and reading `mData.roleinfo` raises. -/
def afterGetRoleList (mData : RoleReply) : Except String (CConnection × List Out) :=
  match mData with
  | none => .error "attempt to index a nil value (local 'mData')"
  | some roleinfo =>
    let lRoleList := roleinfo.getD []
    .ok ({ c with iStatus := .statusRole, lRoleList := lRoleList }, [.gs2cSelectRole lRoleList])

/-- The field `m_lRolelist` of the source: neither `New` nor any method assigns it. -/
def lRolelist (_c : CConnection) : Option (List Role) := none

def validCreateRole (sAccount _sName : String) (_iIcon : Int) : Except String LoginCode :=
  if c.sAccount ≠ some sAccount then .ok .loginAccountUnexist
  else if c.iStatus.toNat < StatusLogin.statusRole.toNat then .ok .loginUnloadRole
  else do
    if (← luaLen "m_lRolelist" c.lRolelist) ≥ maxRoleLimit then return .loginRoleLimit
    return .loginOk

def createRole (sAccount sName : String) (iIcon : Int) : Except String (List Out) := do
  let iRet ← c.validCreateRole sAccount sName iIcon
  if iRet.errcode ≠ 1 then return [.gs2cLoginError iRet]
  return [.genPlayerId sName iIcon]

def afterGetPlayerId (_c : CConnection) (sName : String) (iIcon : Int) (iPid : Pid) : List Out :=
  [.insertPlayerNameAndPid sName iIcon iPid]

def afterInsertNameAndPid (sName : String) (iIcon : Int) (iPid : Pid) (success : Bool) : CConnection × List Out :=
  if !success then (c, [.gs2cLoginError .loginNameDuplicate])
  else
    let c' := { c with lRoleList := c.lRoleList ++ [⟨iPid, sName, iIcon⟩] }
    (c', .saveRoleList c'.lRoleList c'.sAccount :: c'.login iPid)

def validSelectRole (sAccount : String) (iPid : Pid) : LoginCode :=
  if c.iStatus.toNat < StatusLogin.statusRole.toNat then .loginUnloadRole
  else if some sAccount ≠ c.sAccount then .loginAccountUnexist
  else if c.lRoleList.any (·.pid = iPid) then .loginOk
  else .loginPidUnexist

def selectRole (sAccount : String) (iPid : Pid) : List Out :=
  let iRet := c.validSelectRole sAccount iPid
  if iRet ≠ .loginOk then [.gs2cLoginError iRet] else c.login iPid

end CConnection

/-! ## `CGateMgr` -/

/-- The table `m_mConnObj` of the gate manager. -/
abbrev ConnObjs := Fd → Option CConnection

namespace ConnObjs

variable (m : ConnObjs)

def addConnection (oConn : CConnection) : ConnObjs × List Out :=
  (update m oConn.iFd (some oConn), oConn.forward)

def getConnection (iFd : Fd) : Option CConnection := m iFd

def removeConnection (iFd : Fd) : ConnObjs × List Out :=
  match m iFd with
  | none => (m, [])
  | some oConn => (update m iFd none, oConn.onRemove)

end ConnObjs

/-! ## What the methods return -/

namespace CConnection

variable (c : CConnection)

/-- `LoginAccount` takes over any account that is not blank, whatever the connection was logged in as. -/
theorem loginAccount_eq (sAccount sPwd : String) :
    c.loginAccount sAccount sPwd =
      if (trim sAccount).length ≤ 0 then (c, [.gs2cLoginError .loginAccountUnexist])
      else ({ c with sAccount := some sAccount }, [.getRoleList sAccount]) := by
  unfold loginAccount validLoginByAccount
  split <;> simp

/-- `SelectRole` lets exactly the roles of its list through, under the account of the connection. -/
theorem selectRole_eq (sAccount : String) (iPid : Pid) :
    c.selectRole sAccount iPid =
      if c.iStatus = .statusInit then [.gs2cLoginError .loginUnloadRole]
      else if c.sAccount ≠ some sAccount then [.gs2cLoginError .loginAccountUnexist]
      else if iPid ∈ c.lRoleList.map (·.pid) then
        [.loginPlayer iPid ⟨sAccount, c.iGateAddr, c.iFd, c.iPort⟩]
      else [.gs2cLoginError .loginPidUnexist] := by
  unfold selectRole validSelectRole
  cases hst : c.iStatus with
  | statusInit => simp [StatusLogin.toNat]
  | statusRole =>
    by_cases ha : c.sAccount = some sAccount
    · by_cases hp : iPid ∈ c.lRoleList.map (·.pid)
      · have hany : (c.lRoleList.any fun r => r.pid = iPid) = true := by simpa using hp
        simp [StatusLogin.toNat, ha, hany, hp, login]
      · have hany : (c.lRoleList.any fun r => r.pid = iPid) = false := by simpa using hp
        simp [StatusLogin.toNat, ha, hany, hp]
    · simp [StatusLogin.toNat, ha, Ne.symm ha]

/-- `CreateRole` answers with an error code while the account or the status does not fit, and raises after that. -/
theorem createRole_eq (sAccount sName : String) (iIcon : Int) :
    c.createRole sAccount sName iIcon =
      if c.sAccount ≠ some sAccount then .ok [.gs2cLoginError .loginAccountUnexist]
      else if c.iStatus = .statusInit then .ok [.gs2cLoginError .loginUnloadRole]
      else .error "attempt to get length of a nil value (field 'm_lRolelist')" := by
  unfold createRole validCreateRole
  by_cases ha : c.sAccount = some sAccount
  · cases hst : c.iStatus <;> simp [ha, StatusLogin.toNat, luaLen, lRolelist, LoginCode.errcode] <;> rfl
  · simp [ha, LoginCode.errcode]; rfl

end CConnection

end RoundGame.Login
